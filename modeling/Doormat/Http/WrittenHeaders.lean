import Doormat.Http.Received

/-! Headers as an application sets them, and as the other end stores the lines that are written for
them: each name that does not belong to the connection comes back with its values joined. -/
namespace Doormat.Http

open Bytes Doormat.Parser Multimap

/-- A call of `header` is given a token and a value of the grammar. -/
def Mutation.Spelled : Mutation → Prop
  | .header key value => Line key value
  | _ => True

/-- The name of a line may be written in lower case. -/
theorem Line.lower {name value : ByteString} (h : Line name value) : Line (lower name) value where
  named := by simpa [Bytes.lower] using h.named
  token := by
    intro c hc
    obtain ⟨c', hc', rfl⟩ := List.mem_map.mp hc
    exact forall_byte (P := fun c => Parser.token c ≠ 0 → Parser.token (toLower c) ≠ 0) (by decide +kernel) c'
      (h.token c' hc')
  chars := h.chars
  start := h.start

namespace StructuredData

variable {d d' : StructuredData} {key other value : ByteString}

/-! ### What is set -/

/-- Every header is a line of the grammar, under a name in lower case. -/
def Spelled (d : StructuredData) : Prop := ∀ key, ∀ value ∈ d.getHeaders key, Line key value ∧ lower key = key

theorem Spelled.of_headers (h : d.Spelled) (hHeaders : d'.headers = d.headers) : d'.Spelled := by
  intro key value hValue
  rw [getHeaders, hHeaders] at hValue
  exact h key value hValue

theorem Spelled.removeHeader (h : d.Spelled) (key : ByteString) : (d.removeHeader key).Spelled := by
  intro other value hValue
  by_cases hSame : key = other
  · rw [hSame, getHeaders_removeHeader_self] at hValue
    cases hValue
  · rw [getHeaders_removeHeader_of_ne _ hSame] at hValue
    exact h other value hValue

theorem Spelled.insertHeader (h : d.Spelled) (hLine : Line key value) (hLower : lower key = key) :
    (d.insertHeader key value).Spelled := by
  intro other v hValue
  by_cases hSame : key = other
  · subst hSame
    rw [getHeaders_insertHeader_self, List.mem_append, List.mem_singleton] at hValue
    rcases hValue with hOld | rfl
    · exact h key v hOld
    · exact ⟨hLine, hLower⟩
  · rw [getHeaders_insertHeader_of_ne _ _ hSame] at hValue
    exact h other v hValue

theorem Spelled.storeHeader (h : d.Spelled) (hLine : Line key value) (hLower : lower key = key) :
    (d.storeHeader key value).Spelled := by
  rw [StructuredData.storeHeader]
  split
  · exact (h.removeHeader key).insertHeader hLine hLower
  split
  · have hFlagged : Spelled { d with chunked := true } := h.of_headers rfl
    exact ((hFlagged.removeHeader _).removeHeader _).insertHeader hLine hLower
  · exact h.insertHeader hLine hLower

theorem Spelled.setProtocol (h : d.Spelled) (val : ProtoVersion) : (d.setProtocol val).Spelled := by
  have hClose : Line hfConnection hvConnectionClose ∧ lower hfConnection = hfConnection := by decide +kernel
  have hStated : ∀ val, Spelled { d with protocolVersion := val } := fun _ => h.of_headers rfl
  have hRemoved : ∀ val, Spelled ({ d with protocolVersion := val }.removeHeader hfConnection) :=
    fun val => (hStated val).removeHeader hfConnection
  rw [StructuredData.setProtocol]
  split
  · exact h
  dsimp only
  split
  · cases val with
    | HTTP11 => exact (hRemoved .HTTP11).of_headers rfl
    | HTTP10 => exact ((hRemoved .HTTP10).storeHeader hClose.1 hClose.2).of_headers rfl
    | HTTP20 => exact hRemoved .HTTP20
    | UNSET => exact hRemoved .UNSET
  · exact h.of_headers rfl

/-- There is no content length, or one that `std::stoull` has read. -/
def Measured (d : StructuredData) : Prop :=
  d.getHeaders hfContentLen = [] ∨ ∃ value n, d.getHeaders hfContentLen = [value] ∧ stoull value = .ok n

theorem Measured.of_lengths (h : d.Measured) (hLengths : d'.getHeaders hfContentLen = d.getHeaders hfContentLen) :
    d'.Measured := by
  rw [Measured, hLengths]
  exact h

theorem Measured.storeHeader (h : d.Measured) (hKey : key ≠ hfContentLen) (value : ByteString) :
    (d.storeHeader key value).Measured := by
  by_cases hCoding : key = hfTransferEncoding
  · rw [hCoding, storeHeader_transferEncoding]
    have hNe := hfTransferEncoding_ne
    split
    · left
      rw [getHeaders_insertHeader_of_ne _ _ hNe, getHeaders_removeHeader_self]
    · exact h.of_lengths (getHeaders_insertHeader_of_ne _ _ hNe)
  · exact h.of_lengths (storeHeader_same hKey hCoding).lengths

theorem measured_declareLength {n : Nat} (hValue : stoull value = .ok n) : (d.declareLength n value).Measured :=
  .inr ⟨value, n, getHeaders_declareLength n, hValue⟩

theorem line_numeral (n : Nat) : Line hfContentLen (numeral n) := by
  have hName : Line hfContentLen [] := by decide +kernel
  have hDigit : ∀ c, isDigit c = true → isHeaderChar c = true ∧ c ≠ CR ∧ c ≠ LF ∧ c ≠ SP ∧ c ≠ HT :=
    forall_byte (P := fun c => isDigit c = true → isHeaderChar c = true ∧ c ≠ CR ∧ c ≠ LF ∧ c ≠ SP ∧ c ≠ HT)
      (by decide +kernel)
  refine ⟨hName.named, hName.token, fun c hc => ?_, fun c hc => ?_⟩
  · obtain ⟨hChar, hCR, hLF, -⟩ := hDigit c ((numeral_digits n).1 c hc)
    exact ⟨hChar, hCR, hLF⟩
  · exact (hDigit c ((numeral_digits n).1 c (List.mem_of_mem_head? hc))).2.2.2

/-- The headers as the setters leave them. -/
structure Written (d : StructuredData) : Prop where
  spelled : d.Spelled
  measured : d.Measured

theorem Written.header (h : d.Written) (hLine : Line key value) (hStep : (d.header key value).toOption = some d') :
    d'.Written := by
  by_cases hLength : lower key = hfContentLen
  · obtain ⟨n, hValue, rfl⟩ := (header_contentLen hLength).mp hStep
    have hStated : Spelled { d with contentLen := n } := h.spelled.of_headers rfl
    have hRemoved : Spelled ({ d with contentLen := n }.removeHeader hfContentLen) := hStated.removeHeader hfContentLen
    exact ⟨hRemoved.insertHeader (hLength ▸ hLine.lower) (by decide), measured_declareLength hValue⟩
  · rw [header_other hLength, Option.some.injEq] at hStep
    subst hStep
    exact ⟨h.spelled.storeHeader hLine.lower (lower_lower key), h.measured.storeHeader hLength value⟩

theorem Written.mutate (h : d.Written) {op : Mutation} (hSpelled : op.Spelled) (hStep : d.mutate op = some d') :
    d'.Written := by
  cases op with
  | header key value => exact h.header hSpelled hStep
  | chunked val =>
      have hChunked : Line hfTransferEncoding hvChunked ∧ lower hfTransferEncoding = hfTransferEncoding := by decide +kernel
      cases hStep
      rw [setChunked]
      split
      · exact h
      dsimp only
      split
      · exact ⟨(h.spelled.storeHeader hChunked.1 hChunked.2).of_headers rfl,
          (h.measured.storeHeader hfTransferEncoding_ne hvChunked).of_lengths rfl⟩
      · exact ⟨(h.spelled.removeHeader hfTransferEncoding).of_headers rfl,
          h.measured.of_lengths (getHeaders_removeHeader_of_ne d hfTransferEncoding_ne)⟩
  | contentLen val =>
      rw [StructuredData.mutate, setContentLen] at hStep
      split at hStep
      · cases hStep
      · have hStated : Spelled { d with contentLen := val.toNat } := h.spelled.of_headers rfl
        have hRemoved : Written ({ d with contentLen := val.toNat }.removeHeader hfContentLen) :=
          ⟨hStated.removeHeader hfContentLen, .inl (getHeaders_removeHeader_self _)⟩
        exact hRemoved.header (line_numeral val.toNat) hStep
  | keepalive val =>
      have hPersistency : ∀ val : Bool, Line hfConnection (if val then hvKeepalive else hvConnectionClose) ∧
          lower hfConnection = hfConnection := by decide +kernel
      cases hStep
      have hSame : Spelled { d with keepalive := val, defaultKeepalive := false } := h.spelled.of_headers rfl
      have hLengths : Measured { d with keepalive := val, defaultKeepalive := false } := h.measured.of_lengths rfl
      exact ⟨hSame.storeHeader (hPersistency val).1 (hPersistency val).2, hLengths.storeHeader (by decide) _⟩
  | protocol val =>
      cases hStep
      exact ⟨h.spelled.setProtocol val, h.measured.of_lengths (setProtocol_same val).lengths⟩

theorem written_fresh : Written fresh := by
  have hEntries : fresh.headers.entries = [(hfConnection, hvConnectionClose), (hfContentLen, ofString "0")] := by
    decide +kernel
  have hLines : ∀ e ∈ [(hfConnection, hvConnectionClose), (hfContentLen, ofString "0")],
      Line e.1 e.2 ∧ lower e.1 = e.1 := by decide +kernel
  constructor
  · intro key value hValue
    rw [getHeaders, values_eq, hEntries] at hValue
    obtain ⟨e, hMem, rfl⟩ := List.mem_map.mp hValue
    obtain ⟨hMem, hKey⟩ := List.mem_filter.mp hMem
    have hSame : e.1 = key := by simpa using hKey
    rw [← hSame]
    exact hLines e hMem
  · exact .inr ⟨ofString "0", 0, by decide +kernel, by decide +kernel⟩

/-- Whatever calls of the setters an application makes on a new message. -/
theorem written_run {ops : List Mutation} (hRun : Runs.run StructuredData.mutate .fresh ops = some d)
    (hSpelled : ∀ op ∈ ops, op.Spelled) : d.Written := by
  have hAll : ∀ {start : StructuredData} {ops : List Mutation}, start.Written →
      Runs.run StructuredData.mutate start ops = some d → (∀ op ∈ ops, op.Spelled) → d.Written := by
    intro start ops hStart hRun hSpelled
    induction ops generalizing start with
    | nil =>
        cases hRun
        exact hStart
    | cons op ops ih =>
        obtain ⟨next, hStep, hRest⟩ := Runs.run_cons_eq_some.mp hRun
        exact ih (hStart.mutate (hSpelled op List.mem_cons_self) hStep) hRest
          fun later hLater => hSpelled later (List.mem_cons_of_mem op hLater)
  exact hAll written_fresh hRun hSpelled

/-! ### What is written -/

variable {line : ByteString × ByteString} {lines : List (ByteString × ByteString)} {version : ProtoVersion}

/-- A line holds the values of its name. -/
theorem of_mem_lines (h : line ∈ d.lines) :
    d.getHeaders line.1 ≠ [] ∧ line.2 = (separator line.1).intercalate (d.getHeaders line.1) := by
  have hValue : line.2 ∈ valuesIn d.lines line.1 := mem_valuesIn h
  rw [valuesIn_lines] at hValue
  split at hValue
  · cases hValue
  case isFalse hSome => exact ⟨hSome, List.mem_singleton.mp hValue⟩

theorem separator_chars (key : ByteString) : (∀ c ∈ separator key, isHeaderChar c = true ∧ c ≠ CR ∧ c ≠ LF) ∧
    ∃ c rest, separator key = c :: rest ∧ c ≠ SP ∧ c ≠ HT := by
  rw [separator]
  split
  · exact ⟨by decide +kernel, _, _, rfl, by decide +kernel⟩
  · exact ⟨by decide +kernel, _, _, rfl, by decide +kernel⟩

/-- Values of the grammar make one when they are joined. -/
theorem line_joined {values : List ByteString} (hSome : values ≠ []) (hLines : ∀ v ∈ values, Line key v) :
    Line key ((separator key).intercalate values) := by
  obtain ⟨hChars, c, rest, hSeparator, hBlank⟩ := separator_chars key
  induction values with
  | nil => exact absurd rfl hSome
  | cons value values ih =>
      have hFirst := hLines value List.mem_cons_self
      cases values with
      | nil => simpa [List.intercalate] using hFirst
      | cons next values =>
          have hRest := ih (List.cons_ne_nil next values) fun v hv => hLines v (List.mem_cons_of_mem value hv)
          rw [List.intercalate_cons_cons]
          refine ⟨hFirst.named, hFirst.token, fun c hc => ?_, fun c hc => ?_⟩
          · rcases List.mem_append.mp hc with hFront | hBack
            · rcases List.mem_append.mp hFront with hValue | hGlue
              · exact hFirst.chars c hValue
              · exact hChars c hGlue
            · exact hRest.chars c hBack
          · cases hValue : value with
            | nil =>
                rw [hValue, hSeparator] at hc
                cases hc
                exact hBlank
            | cons first more =>
                rw [hValue] at hc hFirst
                exact hFirst.start c hc

theorem Written.spells (h : d.Written) (hMem : line ∈ d.lines) : Line line.1 line.2 ∧ lower line.1 = line.1 := by
  obtain ⟨hSome, hValue⟩ := of_mem_lines hMem
  obtain ⟨first, hFirst⟩ := List.exists_mem_of_ne_nil _ hSome
  rw [hValue]
  exact ⟨line_joined hSome fun v hv => (h.spelled line.1 v hv).1, (h.spelled line.1 first hFirst).2⟩

theorem Written.readable (h : d.Written) (hMem : line ∈ d.lines) (hName : lower line.1 = hfContentLen) :
    ∃ n, stoull line.2 = .ok n := by
  obtain ⟨hSome, hValue⟩ := of_mem_lines hMem
  rw [(h.spells hMem).2] at hName
  rw [hName] at hSome hValue
  obtain ⟨value, n, hOne, hRead⟩ := h.measured.resolve_left hSome
  rw [hValue, hOne]
  exact ⟨n, by simpa [List.intercalate] using hRead⟩

/-- A header block is written as its lines. -/
theorem Written.serialize (h : d.Written) (hSome : d.lines ≠ []) : d.serialize = some (sectionBytes d.lines ++ crlf) := by
  obtain ⟨line, hMem⟩ := List.exists_mem_of_ne_nil _ hSome
  exact serialize_section (of_mem_lines hMem).1 fun line hLine => (h.spells hLine).1

/-- Without a header there is nothing to write. -/
theorem serialize_none (hNone : d.lines = []) : d.serialize = none := by
  have hRuns : runs d.headers.entries = [] := List.map_eq_nil_iff.mp hNone
  rw [StructuredData.serialize, runs_eq_nil_iff.mp hRuns]
  rfl

/-! ### What is stored -/

/-- Lines whose content lengths are read are all stored. -/
theorem stored_ok (version : ProtoVersion) (d : StructuredData)
    (hReadable : ∀ line ∈ lines, lower line.1 = hfContentLen → ∃ n, stoull line.2 = .ok n) :
    ∃ d', stored version d lines = .ok d' := by
  have hHeader : ∀ (d : StructuredData) (line : ByteString × ByteString),
      (lower line.1 = hfContentLen → ∃ n, stoull line.2 = .ok n) → ∃ d', d.header line.1 line.2 = .ok d' := by
    intro d line hLine
    have hTaken := (d.header_isSome_iff line.1 line.2).mpr hLine
    cases hCase : d.header line.1 line.2 with
    | error e =>
        rw [hCase] at hTaken
        cases hTaken
    | ok d' => exact ⟨d', rfl⟩
  induction lines generalizing d with
  | nil => exact ⟨_, rfl⟩
  | cons line lines ih =>
      cases lines with
      | nil => exact hHeader _ line (hReadable line List.mem_cons_self)
      | cons next rest =>
          obtain ⟨d₁, hFirst⟩ := hHeader d line (hReadable line List.mem_cons_self)
          rw [stored, hFirst]
          exact ih d₁ fun l hl => hReadable l (List.mem_cons_of_mem line hl)

/-- A header changes the values of its own name, and the framing. -/
theorem getHeaders_header (hHeader : d.header key value = .ok d') (hLength : other ≠ hfContentLen)
    (hCoding : other ≠ hfTransferEncoding) :
    d'.getHeaders other = if other = lower key then (if other ∈ singleValued then [] else d.getHeaders other) ++ [value]
      else d.getHeaders other := by
  have hStep : (d.header key value).toOption = some d' := by
    rw [hHeader]
    rfl
  by_cases hKey : lower key = hfContentLen
  · obtain ⟨n, -, rfl⟩ := (header_contentLen hKey).mp hStep
    rw [declareLength, getHeaders_insertHeader_of_ne _ _ hLength.symm, getHeaders_removeHeader_of_ne _ hLength.symm,
      if_neg (by rw [hKey]; exact hLength)]
    rfl
  rw [header_other hKey, Option.some.injEq] at hStep
  subst hStep
  by_cases hOwn : lower key = hfTransferEncoding
  · rw [hOwn, storeHeader_transferEncoding, if_neg hCoding]
    split
    · rw [getHeaders_insertHeader_of_ne _ _ hCoding.symm, getHeaders_removeHeader_of_ne _ hLength.symm,
        getHeaders_removeHeader_of_ne _ hCoding.symm]
      rfl
    · exact getHeaders_insertHeader_of_ne _ _ hCoding.symm
  · rw [getHeaders_storeHeader d hOwn]
    split
    case isTrue hSame => rw [hSame]
    case isFalse => rfl

/-- The lines of a block, each of another name, are stored behind what a message held. -/
theorem stored_values (hStored : stored version d lines = .ok d') (hLower : ∀ line ∈ lines, lower line.1 = line.1)
    (hOnce : (lines.map Prod.fst).Nodup) (hConnection : key ≠ hfConnection) (hLength : key ≠ hfContentLen)
    (hCoding : key ≠ hfTransferEncoding) (hFree : d.getHeaders key = [] ∨ valuesIn lines key = []) :
    d'.getHeaders key = d.getHeaders key ++ valuesIn lines key := by
  have hHeader : ∀ {d d' : StructuredData} {line : ByteString × ByteString}, d.header line.1 line.2 = .ok d' →
      lower line.1 = line.1 → (d.getHeaders key = [] ∨ line.1 ≠ key) →
      d'.getHeaders key = d.getHeaders key ++ if line.1 = key then [line.2] else [] := by
    intro d d' line hHeader hName hOpen
    rw [getHeaders_header hHeader hLength hCoding, hName]
    by_cases hSame : line.1 = key
    · rw [if_pos hSame.symm, if_pos hSame, hOpen.resolve_right (not_not_intro hSame), ite_self]
    · rw [if_neg (Ne.symm hSame), if_neg hSame, List.append_nil]
  induction lines generalizing d with
  | nil =>
      cases hStored
      rw [getHeaders_setProtocol d version hConnection, valuesIn_nil, List.append_nil]
  | cons line lines ih =>
      obtain ⟨hNew, hRestOnce⟩ := List.nodup_cons.mp hOnce
      have hName := hLower line List.mem_cons_self
      have hRestLower : ∀ l ∈ lines, lower l.1 = l.1 := fun l hl => hLower l (List.mem_cons_of_mem line hl)
      have hOpen : d.getHeaders key = [] ∨ line.1 ≠ key := by
        rcases hFree with hNone | hNone
        · exact .inl hNone
        · exact .inr (valuesIn_eq_nil_iff.mp hNone line List.mem_cons_self)
      have hSplit : valuesIn (line :: lines) key = (if line.1 = key then [line.2] else []) ++ valuesIn lines key := by
        by_cases hSame : line.1 = key
        · rw [if_pos hSame, ← hSame, valuesIn_cons_self]
          rfl
        · rw [if_neg hSame, valuesIn_cons_of_ne hSame]
          rfl
      cases lines with
      | nil =>
          rw [← getHeaders_setProtocol d version hConnection] at hOpen
          rw [hHeader hStored hName hOpen, getHeaders_setProtocol d version hConnection, hSplit, valuesIn_nil,
            List.append_nil]
      | cons next rest =>
          rw [stored] at hStored
          split at hStored
          · cases hStored
          case h_2 d₁ hFirst =>
            have hStep := hHeader hFirst hName hOpen
            have hLater : d₁.getHeaders key = [] ∨ valuesIn (next :: rest) key = [] := by
              by_cases hSame : line.1 = key
              · right
                rw [valuesIn_eq_nil_iff]
                intro e hMem hKey
                exact hNew (hSame ▸ hKey ▸ List.mem_map_of_mem hMem)
              · rw [if_neg hSame, List.append_nil] at hStep
                rw [hStep]
                rw [hSplit, if_neg hSame] at hFree
                exact hFree
            rw [ih hStored hRestLower hRestOnce hLater, hStep, hSplit, List.append_assoc]

end StructuredData

end Doormat.Http
