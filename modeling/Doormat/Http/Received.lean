import Doormat.Http.LineEffect
import Doormat.Http.Mutation
import Doormat.Http.Version

/-! The headers of a message that come through: which header sections can be sent, and what
the other end stores of them. -/
namespace Doormat.Http

open Bytes Doormat.Parser Multimap

/-! ### What is sent -/

namespace StructuredData

/-- The header section says, in the words that the parser knows, how the message is framed
and whether the connection persists; the body is `length` bytes long. -/
structure Sendable (d : StructuredData) (length : Nat) : Prop where
  lines : ∀ line ∈ d.lines, Line line.1 line.2
  lower : ∀ line ∈ d.lines, lower line.1 = line.1
  plain : ∀ line ∈ d.lines, line.1 ≠ hfConnection → line.1 ≠ hfTransferEncoding → line.1 ≠ hfContentLen →
    Plain line.1
  persistency : d.getHeaders hfConnection = [if d.keepalive then hvKeepalive else hvConnectionClose]
  coding : d.chunked = true → d.getHeaders hfContentLen = [] ∧
    ∃ value, d.getHeaders hfTransferEncoding = [value] ∧ Bytes.lower value = ofString "chunked"
  length : d.chunked = false → d.getHeaders hfTransferEncoding = [] ∧ length < 2 ^ 63 ∧
    d.contentLen = length ∧ d.getHeaders hfContentLen = [numeral length]

variable {d : StructuredData} {length : Nat} {key value : ByteString}

theorem valuesIn_lines_single (h : d.getHeaders key = [value]) : valuesIn d.lines key = [value] := by
  rw [valuesIn_lines, h]
  simp [List.intercalate]

theorem valuesIn_lines_none (h : d.getHeaders key = []) : valuesIn d.lines key = [] := by
  rw [valuesIn_lines, h]
  rfl

theorem lines_ne_nil (h : d.getHeaders key ≠ []) : d.lines ≠ [] := by
  intro hNil
  have hValues := valuesIn_lines d key
  rw [if_neg h, hNil] at hValues
  cases hValues

theorem mem_valuesIn {entries : List (ByteString × ByteString)} (h : (key, value) ∈ entries) :
    value ∈ valuesIn entries key :=
  List.mem_map.mpr ⟨(key, value), List.mem_filter.mpr ⟨h, by simp⟩, rfl⟩

/-- Each name has one line. -/
theorem nodup_lines (d : StructuredData) : (d.lines.map Prod.fst).Nodup := by
  apply nodup_keys
  intro key
  rw [valuesIn_lines]
  split
  · exact Nat.zero_le 1
  · exact Nat.le_refl 1

namespace Sendable

theorem ordinary (h : d.Sendable length) : ∀ line ∈ d.lines, Ordinary line := by
  rintro ⟨name, value⟩ hLine
  have hValue : value ∈ valuesIn d.lines name := mem_valuesIn hLine
  by_cases hConnection : name = hfConnection
  · subst hConnection
    rw [valuesIn_lines_single h.persistency, List.mem_singleton] at hValue
    subst hValue
    apply Ordinary.persistency
    cases d.keepalive with
    | true => exact .inl rfl
    | false => exact .inr rfl
  cases hChunked : d.chunked with
  | true =>
      obtain ⟨hNone, coding, hCoding, hSpelled⟩ := h.coding hChunked
      by_cases hName : name = hfTransferEncoding
      · subst hName
        rw [valuesIn_lines_single hCoding, List.mem_singleton] at hValue
        subst hValue
        exact .coding hSpelled
      · have hOther : name ≠ hfContentLen := by
          rintro rfl
          rw [valuesIn_lines_none hNone] at hValue
          cases hValue
        exact .plain (h.lower _ hLine) (h.plain _ hLine hConnection hName hOther)
  | false =>
      obtain ⟨hNone, hBound, hSame, hLength⟩ := h.length hChunked
      by_cases hName : name = hfContentLen
      · subst hName
        rw [valuesIn_lines_single hLength, List.mem_singleton] at hValue
        subst hValue
        exact .length hBound
      · have hOther : name ≠ hfTransferEncoding := by
          rintro rfl
          rw [valuesIn_lines_none hNone] at hValue
          cases hValue
        exact .plain (h.lower _ hLine) (h.plain _ hLine hConnection hOther hName)

/-- A message that states a length states no coding. -/
theorem exclusive (h : d.Sendable length) (hLength : valuesIn d.lines hfContentLen ≠ []) :
    valuesIn d.lines hfTransferEncoding = [] := by
  cases hChunked : d.chunked with
  | true => exact absurd (valuesIn_lines_none (h.coding hChunked).1) hLength
  | false => exact valuesIn_lines_none (h.length hChunked).1

theorem lines_ne_nil (h : d.Sendable length) : d.lines ≠ [] :=
  StructuredData.lines_ne_nil (by rw [h.persistency]; exact List.cons_ne_nil _ _)

end Sendable

/-- Lines with their ends in between are lines with their ends. -/
theorem intercalate_renderLine {lines : List (ByteString × ByteString)} (h : lines ≠ []) :
    crlf.intercalate (lines.map renderLine) ++ crlf = sectionBytes lines := by
  have hLine : ∀ line : ByteString × ByteString, renderLine line ++ crlf = lineBytes line.1 line.2 := by
    intro line
    have hColon : colonSpace = [':'.toUInt8, SP] := by decide
    rw [renderLine, lineBytes, hColon]
    simp only [List.append_assoc, List.cons_append, List.nil_append]
    rfl
  induction lines with
  | nil => exact absurd rfl h
  | cons line lines ih =>
      cases lines with
      | nil => simpa [List.intercalate, sectionBytes] using hLine line
      | cons next lines =>
          rw [List.map_cons, List.map_cons, List.intercalate_cons_cons, ← List.map_cons, List.append_assoc,
            ih (List.cons_ne_nil _ _), hLine]
          rfl

/-- A header section is written as its lines and an empty one. -/
theorem serialize_section (hSome : d.getHeaders key ≠ []) (hLines : ∀ line ∈ d.lines, Line line.1 line.2) :
    d.serialize = some (sectionBytes d.lines ++ crlf) := by
  have hEntries : d.headers.entries ≠ [] := by
    intro hNil
    rw [getHeaders, values_eq, hNil] at hSome
    exact hSome rfl
  have hLast : (d.headers.entries.getLast hEntries).1 ≠ [] := by
    have hMem := List.getLast_mem hEntries
    have hValue : d.getHeaders (d.headers.entries.getLast hEntries).1 ≠ [] :=
      mem_keys_iff.mp (List.mem_map_of_mem hMem)
    have hLine : valuesIn d.lines (d.headers.entries.getLast hEntries).1 ≠ [] := by
      rw [valuesIn_lines, if_neg hValue]
      exact List.cons_ne_nil _ _
    obtain ⟨line, hMem', hKey⟩ := List.mem_map.mp (mem_keys_iff.mpr hLine)
    rw [← hKey]
    exact (hLines line hMem').named
  rw [serialize_lines hEntries, if_neg hLast, intercalate_renderLine (lines_ne_nil hSome)]

theorem Sendable.serialize (h : d.Sendable length) : d.serialize = some (sectionBytes d.lines ++ crlf) :=
  serialize_section (by rw [h.persistency]; exact List.cons_ne_nil _ _) h.lines

/-! ### What is stored -/

/-- The message at the other end, where `version` is in force: each header with its values
joined. -/
def received (version : ProtoVersion) (d : StructuredData) : StructuredData where
  protocolVersion := version
  headers := ⟨d.lines, by
    rw [lines, joinRuns, List.pairwise_map]
    exact (runs_sorted d.headers.sorted).imp fun h => le_of_lt h⟩
  chunked := d.chunked
  keepalive := d.keepalive
  defaultKeepalive := false
  contentLen := if d.chunked then 0 else d.contentLen

/-- The lines `front` have been stored in a message that had nothing but its defaults. -/
structure Stores (front : List (ByteString × ByteString)) (d : StructuredData) : Prop where
  other : ∀ key, key ≠ hfConnection → key ≠ hfContentLen → d.getHeaders key = valuesIn front key
  length : d.getHeaders hfContentLen =
    if valuesIn front hfTransferEncoding ≠ [] then []
    else if valuesIn front hfContentLen = [] then [ofString "0"] else valuesIn front hfContentLen
  chunked : d.chunked = decide (valuesIn front hfTransferEncoding ≠ [])
  contentLen : d.contentLen = ((valuesIn front hfContentLen).head?.map decimal).getD 0

theorem stores_fresh : Stores [] fresh where
  other := by
    intro key hConnection hLength
    have hEntries : fresh.headers.entries =
        [(hfConnection, hvConnectionClose), (hfContentLen, ofString "0")] := by decide +kernel
    rw [getHeaders, values_eq, hEntries]
    simp [valuesIn, hConnection.symm, hLength.symm]
  length := by decide +kernel
  chunked := rfl
  contentLen := rfl

theorem getHeaders_storeHeader (d : StructuredData) (hCoding : key ≠ hfTransferEncoding) (value other : ByteString) :
    (d.storeHeader key value).getHeaders other =
      if other = key then (if key ∈ singleValued then [] else d.getHeaders key) ++ [value]
      else d.getHeaders other := by
  by_cases hSingle : key ∈ singleValued
  · rw [storeHeader, if_pos hSingle]
    by_cases hSame : other = key
    · subst hSame
      simp [hSingle]
    · have hNe : key ≠ other := fun h => hSame h.symm
      rw [if_neg hSame, getHeaders_insertHeader_of_ne _ _ hNe, getHeaders_removeHeader_of_ne _ hNe]
  · rw [storeHeader, if_neg hSingle, if_neg fun h => hCoding h.1]
    by_cases hSame : other = key
    · subst hSame
      simp [hSingle]
    · have hNe : key ≠ other := fun h => hSame h.symm
      rw [if_neg hSame, getHeaders_insertHeader_of_ne _ _ hNe]

theorem getHeaders_setProtocol (d : StructuredData) (version : ProtoVersion) (h : key ≠ hfConnection) :
    (d.setProtocol version).getHeaders key = d.getHeaders key := by
  have hRemoved : ∀ d : StructuredData, (d.removeHeader hfConnection).getHeaders key = d.getHeaders key :=
    fun d => d.getHeaders_removeHeader_of_ne h.symm
  rw [setProtocol]
  split
  · rfl
  dsimp only
  split
  · cases version with
    | HTTP10 =>
        show ((({ d with protocolVersion := .HTTP10 }.removeHeader hfConnection).storeHeader hfConnection
          hvConnectionClose)).getHeaders key = _
        rw [getHeaders_storeHeader _ (by decide), if_neg h, hRemoved]
        rfl
    | HTTP11 => exact hRemoved _
    | HTTP20 => exact hRemoved _
    | UNSET => exact hRemoved _
  · rfl

variable {front : List (ByteString × ByteString)} {line : ByteString × ByteString}

/-- A message that differs in its `connection` header only. -/
theorem Stores.of_same {d' : StructuredData} (h : Stores front d) (hSame : SameFraming d d')
    (hHeaders : ∀ key, key ≠ hfConnection → d'.getHeaders key = d.getHeaders key) : Stores front d' where
  other key hConnection hLength := (hHeaders key hConnection).trans (h.other key hConnection hLength)
  length := hSame.lengths.trans h.length
  chunked := hSame.chunked.trans h.chunked
  contentLen := hSame.contentLen.trans h.contentLen

theorem Stores.setProtocol (h : Stores front d) (version : ProtoVersion) : Stores front (d.setProtocol version) :=
  h.of_same (setProtocol_same version) fun _ hKey => getHeaders_setProtocol d version hKey

theorem Stores.setKeepalive (h : Stores front d) (val : Bool) : Stores front (d.setKeepalive val) := by
  apply h.of_same (setKeepalive_same val)
  intro key hKey
  rw [StructuredData.setKeepalive, getHeaders_storeHeader _ (by decide), if_neg hKey]
  rfl

theorem valuesIn_snoc (front : List (ByteString × ByteString)) (name value key : ByteString) :
    valuesIn (front ++ [(name, value)]) key = valuesIn front key ++ if key = name then [value] else [] := by
  rw [valuesIn_append]
  by_cases hSame : key = name
  · subst hSame
    simp
  · have hNe : name ≠ key := fun h => hSame h.symm
    simp [hSame, valuesIn_cons_of_ne hNe]

theorem header_ok (hKey : lower key ≠ hfContentLen) : d.header key value = .ok (d.storeHeader (lower key) value) := by
  rw [header, if_neg hKey]

theorem header_numeral {n : Nat} (hBound : n < 2 ^ 63) :
    d.header hfContentLen (numeral n) = .ok (d.declareLength n (numeral n)) := by
  have hRead : stoull (numeral n) = .ok n := stoull_numeral (by rw [sizeLimit]; omega)
  have hLower : Bytes.lower hfContentLen = hfContentLen := by decide
  simp [header, hLower, hRead, declareLength, bind, Except.bind]

/-- A further line, of a name that has none yet, is stored. -/
theorem Stores.header (h : Stores front d) (hOrdinary : Ordinary line) (hNew : valuesIn front line.1 = [])
    (hExclusive : line.1 = hfContentLen → valuesIn front hfTransferEncoding = []) :
    ∃ d', d.header line.1 line.2 = .ok d' ∧ Stores (front ++ [line]) d' := by
  have hLengthCoding : hfContentLen ≠ hfTransferEncoding := by decide
  have hLengthConnection : hfContentLen ≠ hfConnection := by decide
  cases hOrdinary with
  | @plain name value hLower hPlain =>
      have hLength : name ≠ hfContentLen := fun hSame => hPlain.length (hSame ▸ List.prefix_refl _)
      have hCoding := hPlain.coding
      have hSame := @storeHeader_same d name value hLength hCoding
      refine ⟨d.storeHeader name value, ?_, ?_, ?_, ?_, ?_⟩
      · rw [header_ok (by rw [hLower]; exact hLength), hLower]
      · intro key hConnection hOther
        rw [getHeaders_storeHeader d hCoding, valuesIn_snoc]
        by_cases hKey : key = name
        · subst hKey
          have hNone : valuesIn front key = [] := hNew
          simp [hNone, h.other key hConnection hOther]
        · rw [if_neg hKey, if_neg hKey, List.append_nil]
          exact h.other key hConnection hOther
      · rw [hSame.lengths, h.length, valuesIn_snoc, valuesIn_snoc, if_neg hCoding.symm, if_neg hLength.symm,
          List.append_nil, List.append_nil]
      · rw [hSame.chunked, h.chunked, valuesIn_snoc, if_neg hCoding.symm, List.append_nil]
      · rw [hSame.contentLen, h.contentLen, valuesIn_snoc, if_neg hLength.symm, List.append_nil]
  | @persistency value hValue =>
      have hSame := @storeHeader_same d hfConnection value (by decide) (by decide)
      have hCoding : ¬ hfTransferEncoding = hfConnection := by decide
      have hLower : Bytes.lower hfConnection = hfConnection := by decide
      have hOther : Bytes.lower hfConnection ≠ hfContentLen := by decide
      refine ⟨d.storeHeader hfConnection value, (header_ok hOther).trans (by rw [hLower]), ?_, ?_, ?_, ?_⟩
      · intro key hConnection hOther
        rw [getHeaders_storeHeader d (by decide), if_neg hConnection, valuesIn_snoc, if_neg hConnection,
          List.append_nil]
        exact h.other key hConnection hOther
      · rw [hSame.lengths, h.length, valuesIn_snoc, valuesIn_snoc, if_neg hCoding, if_neg hLengthConnection,
          List.append_nil, List.append_nil]
      · rw [hSame.chunked, h.chunked, valuesIn_snoc, if_neg hCoding, List.append_nil]
      · rw [hSame.contentLen, h.contentLen, valuesIn_snoc, if_neg hLengthConnection, List.append_nil]
  | @coding value hValue =>
      have hChunked : isChunkedCoding value = true := beq_iff_eq.mpr (hValue.trans (by decide))
      have hLower : Bytes.lower hfTransferEncoding = hfTransferEncoding := by decide
      have hOther : Bytes.lower hfTransferEncoding ≠ hfContentLen := by decide
      have hNe := hfTransferEncoding_ne
      refine ⟨d.storeHeader hfTransferEncoding value, (header_ok hOther).trans (by rw [hLower]), ?_, ?_, ?_, ?_⟩
      · intro key hConnection hOther
        rw [storeHeader_transferEncoding, if_pos hChunked, valuesIn_snoc]
        by_cases hKey : key = hfTransferEncoding
        · subst hKey
          have hNone : valuesIn front hfTransferEncoding = [] := hNew
          rw [if_pos rfl, hNone, getHeaders_insertHeader_self, getHeaders_removeHeader_of_ne _ hNe.symm,
            getHeaders_removeHeader_self]
        · have hOff : hfTransferEncoding ≠ key := fun hSame => hKey hSame.symm
          rw [if_neg hKey, List.append_nil, getHeaders_insertHeader_of_ne _ _ hOff,
            getHeaders_removeHeader_of_ne _ hOther.symm, getHeaders_removeHeader_of_ne _ hOff]
          exact h.other key hConnection hOther
      · rw [storeHeader_transferEncoding, if_pos hChunked, getHeaders_insertHeader_of_ne _ _ hNe,
          getHeaders_removeHeader_self, valuesIn_snoc, if_pos rfl]
        simp
      · rw [storeHeader_transferEncoding, if_pos hChunked, valuesIn_snoc, if_pos rfl]
        simp
      · rw [storeHeader_transferEncoding, if_pos hChunked, valuesIn_snoc, if_neg hLengthCoding, List.append_nil]
        exact h.contentLen
  | @length n hBound =>
      have hNone : valuesIn front hfTransferEncoding = [] := hExclusive rfl
      have hNoLength : valuesIn front hfContentLen = [] := hNew
      refine ⟨d.declareLength n (numeral n), header_numeral hBound, ?_, ?_, ?_, ?_⟩
      · intro key hConnection hOther
        rw [declareLength, getHeaders_insertHeader_of_ne _ _ hOther.symm,
          getHeaders_removeHeader_of_ne _ hOther.symm, valuesIn_snoc, if_neg hOther, List.append_nil]
        exact h.other key hConnection hOther
      · rw [getHeaders_declareLength, valuesIn_snoc, valuesIn_snoc, if_neg hLengthCoding.symm, hNone, hNoLength]
        simp
      · rw [valuesIn_snoc, if_neg hLengthCoding.symm, List.append_nil]
        exact h.chunked
      · rw [valuesIn_snoc, if_pos rfl, hNoLength]
        exact (numeral_digits n).2.symm

/-- The lines of a section, the last of which is stored under the version in force. -/
def stored (version : ProtoVersion) (d : StructuredData) :
    List (ByteString × ByteString) → Except ConversionError StructuredData
  | [] => .ok (d.setProtocol version)
  | [line] => (d.setProtocol version).header line.1 line.2
  | line :: next :: rest =>
      match d.header line.1 line.2 with
      | .error e => .error e
      | .ok d => stored version d (next :: rest)

/-- All lines are stored. -/
theorem Stores.all {lines : List (ByteString × ByteString)} (version : ProtoVersion) (h : Stores front d)
    (hOrdinary : ∀ line ∈ lines, Ordinary line) (hOnce : ((front ++ lines).map Prod.fst).Nodup)
    (hExclusive : valuesIn (front ++ lines) hfContentLen ≠ [] → valuesIn (front ++ lines) hfTransferEncoding = []) :
    ∃ d', stored version d lines = .ok d' ∧ Stores (front ++ lines) d' := by
  induction lines generalizing front d with
  | nil =>
      refine ⟨d.setProtocol version, rfl, ?_⟩
      rw [List.append_nil]
      exact h.setProtocol version
  | cons line lines ih =>
      have hNew : valuesIn front line.1 = [] := by
        apply valuesIn_eq_nil_iff.mpr
        intro e hMem hKey
        rw [List.map_append] at hOnce
        exact (List.nodup_append.mp hOnce).2.2 e.1 (List.mem_map_of_mem hMem) line.1
          (List.mem_map_of_mem List.mem_cons_self) hKey
      have hFree : line.1 = hfContentLen → valuesIn front hfTransferEncoding = [] := by
        intro hLength
        have hSome : valuesIn (front ++ line :: lines) hfContentLen ≠ [] := by
          rw [← hLength]
          apply mem_keys_iff.mp
          simp
        have hNone := hExclusive hSome
        rw [valuesIn_append] at hNone
        exact (List.append_eq_nil_iff.mp hNone).1
      have hSnoc : front ++ line :: lines = front ++ [line] ++ lines := by simp
      cases lines with
      | nil => exact (h.setProtocol version).header (hOrdinary line List.mem_cons_self) hNew hFree
      | cons next rest =>
          obtain ⟨d₁, hHeader, hStores⟩ := h.header (hOrdinary line List.mem_cons_self) hNew hFree
          rw [hSnoc] at hOnce hExclusive ⊢
          obtain ⟨d', hRest, hAll⟩ := ih hStores (fun l hl => hOrdinary l (List.mem_cons_of_mem line hl)) hOnce hExclusive
          refine ⟨d', ?_, hAll⟩
          rw [stored, hHeader]
          exact hRest

theorem stored_protocolVersion {version : ProtoVersion} {lines : List (ByteString × ByteString)} {d' : StructuredData}
    (h : stored version d lines = .ok d') : d'.protocolVersion = version := by
  induction lines generalizing d with
  | nil =>
      cases h
      exact setProtocol_protocolVersion d version
  | cons line lines ih =>
      cases lines with
      | nil => exact (header_protocolVersion h).trans (setProtocol_protocolVersion d version)
      | cons next rest =>
          rw [stored] at h
          split at h
          · cases h
          · exact ih h

/-- What is stored of the lines of a message is that message. -/
theorem received_of_stores {version : ProtoVersion} {length : Nat} {d' : StructuredData} (h : d.Sendable length)
    (hStores : Stores d.lines d') (hVersion : d'.protocolVersion = version) :
    d'.setKeepalive d.keepalive = received version d := by
  have hKept := hStores.setKeepalive d.keepalive
  have hHeaders : (d'.setKeepalive d.keepalive).headers = (received version d).headers := by
    apply ext_values
    intro key
    show (d'.setKeepalive d.keepalive).getHeaders key = valuesIn d.lines key
    by_cases hConnection : key = hfConnection
    · subst hConnection
      rw [setKeepalive, getHeaders_storeHeader _ (by decide), if_pos rfl, if_pos (by decide), List.nil_append,
        valuesIn_lines_single h.persistency]
    by_cases hLength : key = hfContentLen
    · subst hLength
      rw [hKept.length]
      cases hChunked : d.chunked with
      | true =>
          obtain ⟨hNone, coding, hCoding, -⟩ := h.coding hChunked
          rw [valuesIn_lines_single hCoding, valuesIn_lines_none hNone, if_pos (List.cons_ne_nil _ _)]
      | false =>
          obtain ⟨hNone, -, -, hSome⟩ := h.length hChunked
          rw [valuesIn_lines_none hNone, valuesIn_lines_single hSome, if_neg (fun hNot => hNot rfl),
            if_neg (List.cons_ne_nil _ _)]
    · exact hKept.other key hConnection hLength
  have hChunked : (d'.setKeepalive d.keepalive).chunked = d.chunked := by
    rw [hKept.chunked]
    cases hChunked : d.chunked with
    | true =>
        obtain ⟨-, coding, hCoding, -⟩ := h.coding hChunked
        rw [valuesIn_lines_single hCoding]
        rfl
    | false =>
        rw [valuesIn_lines_none (h.length hChunked).1]
        rfl
  have hLength : (d'.setKeepalive d.keepalive).contentLen = if d.chunked then 0 else d.contentLen := by
    rw [hKept.contentLen]
    cases hChunked : d.chunked with
    | true =>
        rw [valuesIn_lines_none (h.coding hChunked).1]
        rfl
    | false =>
        obtain ⟨-, -, hSame, hSome⟩ := h.length hChunked
        rw [valuesIn_lines_single hSome, hSame]
        exact (numeral_digits length).2
  have hOwn : (d'.setKeepalive d.keepalive).protocolVersion = version :=
    (setKeepalive_protocolVersion d' d.keepalive).trans hVersion
  have hKeepalive : (d'.setKeepalive d.keepalive).keepalive = d.keepalive := rfl
  have hDefault : (d'.setKeepalive d.keepalive).defaultKeepalive = false := rfl
  generalize d'.setKeepalive d.keepalive = e at hHeaders hChunked hLength hOwn hKeepalive hDefault
  cases e
  dsimp only at hHeaders hChunked hLength hOwn hKeepalive hDefault
  rw [hHeaders, hChunked, hLength, hOwn, hKeepalive, hDefault]
  rfl

end StructuredData

end Doormat.Http
