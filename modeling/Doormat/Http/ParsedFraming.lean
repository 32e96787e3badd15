import Doormat.Http.ContentLength
import Doormat.Http.Coding

/-! What the parser takes the lines of a header section to say of the body, beside these lines
as the codec stores them. -/
namespace Doormat.Http

open Bytes Doormat.Parser

variable {v w : Assembly} {p q : Fields} {h : HeaderState} {ch c : UInt8} {cur : Option Mark} {value : ByteString}
  {lines : List (ByteString × ByteString)} {line : ByteString × ByteString}

/-! ### Lines -/

/-- The values of the lines that name a content length. -/
def lengthsIn (lines : List (ByteString × ByteString)) : List ByteString :=
  (lines.filter fun line => lower line.1 = hfContentLen).map Prod.snd

/-- The line states the coding, with nothing behind the word. -/
def Coded (line : ByteString × ByteString) : Prop := lower line.1 = hfTransferEncoding ∧ lower line.2 = codingWord

instance (line : ByteString × ByteString) : Decidable (Coded line) :=
  inferInstanceAs (Decidable (lower line.1 = hfTransferEncoding ∧ lower line.2 = codingWord))

/-- Some line does. -/
def codedIn (lines : List (ByteString × ByteString)) : Bool := lines.any fun line => decide (Coded line)

theorem codedIn_snoc (lines : List (ByteString × ByteString)) (line : ByteString × ByteString) :
    codedIn (lines ++ [line]) = (codedIn lines || decide (Coded line)) := by
  simp [codedIn]

theorem lengthsIn_snoc (lines : List (ByteString × ByteString)) (line : ByteString × ByteString) :
    lengthsIn (lines ++ [line]) = lengthsIn lines ++ if lower line.1 = hfContentLen then [line.2] else [] := by
  unfold lengthsIn
  rw [List.filter_append, List.map_append]
  by_cases hName : lower line.1 = hfContentLen
  · simp [hName]
  · simp [hName]

/-- There are spaces behind the word for the coding, and nothing else. -/
def Padded (value : ByteString) : Prop :=
  lower value ≠ codingWord ∧ codingWord <+: lower value ∧ ∀ b ∈ (lower value).drop codingWord.length, b = SP

instance (value : ByteString) : Decidable (Padded value) := inferInstanceAs (Decidable (_ ∧ _ ∧ _))

/-- The digits behind a space do not count: without them the value makes the same number. -/
def Solid (value : ByteString) : Prop := decimal (value.filter isDigit) = decimal (value.takeWhile isDigit)

instance (value : ByteString) : Decidable (Solid value) :=
  inferInstanceAs (Decidable (decimal (value.filter isDigit) = decimal (value.takeWhile isDigit)))

/-- The parser and the codec read the line alike. The parser passes over spaces behind the coding and among
the digits of a content length; the codec takes the first for another coding, and stops at the second. -/
structure ReadAlike (line : ByteString × ByteString) : Prop where
  coding : lower line.1 = hfTransferEncoding → ¬ Padded line.2
  length : lower line.1 = hfContentLen → Solid line.2

instance (line : ByteString × ByteString) : Decidable (ReadAlike line) :=
  decidable_of_iff
    ((lower line.1 = hfTransferEncoding → ¬ Padded line.2) ∧ (lower line.1 = hfContentLen → Solid line.2))
    (Iff.intro (fun h => ⟨h.1, h.2⟩) fun h => And.intro h.coding h.length)

def AllAlike (lines : List (ByteString × ByteString)) : Prop := ∀ line ∈ lines, ReadAlike line

instance (lines : List (ByteString × ByteString)) : Decidable (AllAlike lines) :=
  inferInstanceAs (Decidable (∀ line ∈ lines, ReadAlike line))

theorem AllAlike.front (h : AllAlike (lines ++ [line])) : AllAlike lines :=
  fun other hMem => h other (List.mem_append_left _ hMem)

theorem AllAlike.last (h : AllAlike (lines ++ [line])) : ReadAlike line :=
  h line (List.mem_append_right _ (List.mem_singleton.mpr rfl))

/-- The parser has the content length that the lines name. -/
structure LengthOf (p : Fields) (lines : List (ByteString × ByteString)) : Prop where
  length : AllAlike lines → lengthsIn lines = [] ∧ p.contentLength = ullongMax ∨
    ∃ value, lengthsIn lines = [value] ∧
      ∀ n, stoull value = .ok n → n = p.contentLength ∧ p.contentLength ≠ ullongMax
  flagged : lengthsIn lines ≠ [] → p.flags.contentlength = true

/-- The parser has the framing that the lines state. -/
structure FramingOf (p : Fields) (lines : List (ByteString × ByteString)) : Prop where
  coding : AllAlike lines → p.flags.chunked = codedIn lines
  length : LengthOf p lines

/-- Of the framing, `q` has what `p` has. -/
structure FramedAs (p q : Fields) : Prop where
  chunked : q.flags.chunked = p.flags.chunked
  flagged : q.flags.contentlength = p.flags.contentlength
  length : q.contentLength = p.contentLength

theorem LengthOf.of_framed (h : LengthOf p lines) (hSame : FramedAs p q) : LengthOf q lines where
  length := hSame.length.symm ▸ h.length
  flagged hSome := hSame.flagged.trans (h.flagged hSome)

theorem FramingOf.of_framed (h : FramingOf p lines) (hSame : FramedAs p q) : FramingOf q lines where
  coding hAlike := hSame.chunked.trans (h.coding hAlike)
  length := h.length.of_framed hSame

/-! ### The name -/

theorem matchNext_framed (p : Fields) (c : UInt8) (constant : ByteString) (done other h : HeaderState) :
    FramedAs p (matchNext p c constant done other h).1 := by
  unfold matchNext
  dsimp only
  repeat' split
  all_goals exact ⟨rfl, rfl, rfl⟩

/-- A character of a name leaves the framing alone, but for the flag of a content length. -/
theorem fieldSwitch_framed (hGo : fieldSwitch p ch c = .go q) :
    q.flags.chunked = p.flags.chunked ∧ q.contentLength = p.contentLength ∧
      (p.flags.contentlength = true → q.flags.contentlength = true) ∧
      (q.headerState = .contentLength → p.headerState ≠ .contentLength → q.flags.contentlength = true) := by
  have hName : ∀ (constant : ByteString) (done : HeaderState), done ≠ .contentLength →
      p.headerState ≠ .contentLength →
      Switch.go { (matchNext p c constant done .general p.headerState).1 with
        headerState := (matchNext p c constant done .general p.headerState).2 } = .go q →
      q.flags.chunked = p.flags.chunked ∧ q.contentLength = p.contentLength ∧
        (p.flags.contentlength = true → q.flags.contentlength = true) ∧
        (q.headerState = .contentLength → p.headerState ≠ .contentLength → q.flags.contentlength = true) := by
    intro constant done hDone hOther hEq
    have hSame := matchNext_framed p c constant done .general p.headerState
    cases hEq
    refine ⟨hSame.chunked, hSame.length, fun hFlag => hSame.flagged.trans hFlag, fun hState => ?_⟩
    exfalso
    simp only [matchNext] at hState
    split at hState
    · cases hState
    split at hState
    · exact hDone hState
    · exact hOther hState
  unfold fieldSwitch at hGo
  split at hGo
  case h_5 hState | h_6 hState | h_8 hState | h_9 hState =>
    exact hName _ _ (by decide) (by rw [hState]; decide) hGo
  case h_7 hState =>
    have hSame := matchNext_framed p c (ofString "content-length") .contentLength .general p.headerState
    dsimp only at hGo
    split at hGo
    · split at hGo
      · cases hGo
      · cases hGo
        exact ⟨hSame.chunked, hSame.length, fun _ => rfl, fun _ _ => rfl⟩
    case isFalse hNot =>
      cases hGo
      exact ⟨hSame.chunked, hSame.length, fun hFlag => hSame.flagged.trans hFlag, fun hState => absurd hState hNot⟩
  case h_1 hState =>
    cases hGo
    exact ⟨rfl, rfl, id, fun hSame hNot => absurd hSame hNot⟩
  case h_2 | h_3 | h_4 =>
    cases hGo
    refine ⟨rfl, rfl, id, fun hState => ?_⟩
    dsimp only at hState
    repeat' split at hState
    all_goals cases hState
  case h_10 hState | h_12 hState | h_13 hState | h_11 hState =>
    split at hGo
    · cases hGo
      exact ⟨rfl, rfl, id, fun hGeneral => (by cases hGeneral)⟩
    · cases hGo
      exact ⟨rfl, rfl, id, fun hSame hNot => absurd hSame hNot⟩
  case h_14 => cases hGo

/-- What is known within a name. -/
structure AtName (p : Fields) (v : Assembly) : Prop where
  value : v.value = []
  coding : NamesCoding (lower v.key) p
  naming : ∃ stated, Naming stated (lower v.key) p ∧ (lengthsIn v.headers ≠ [] → stated = true) ∧
    (stated = true ∨ hfContentLen <+: lower v.key → p.flags.contentlength = true)
  framing : FramingOf p v.headers

theorem AtName.first (h : FramingOf p v.headers) (hKey : v.key = []) (hValue : v.value = [])
    (hToken : token ch ≠ 0) :
    AtName { p with state := .headerField, index := 0, headerState := firstHeaderState (token ch) }
      (v.extend .headerField ch) := by
  have hName : lower (v.key ++ [ch]) = [token ch] := by
    rw [hKey, lower_snoc hToken]
    rfl
  have hShort : ¬ hfContentLen <+: [token ch] := by
    intro hLong
    have hLength := hLong.length_le
    rw [length_hfContentLen, List.length_singleton] at hLength
    exact absurd hLength (by decide)
  refine ⟨hValue, ?_, ⟨p.flags.contentlength, ?_, h.length.flagged, ?_⟩, h.of_framed ⟨rfl, rfl, rfl⟩⟩
  · show NamesCoding (lower (v.key ++ [ch])) _
    rw [hName]
    exact namesCoding_first p (token ch)
  · show Naming _ (lower (v.key ++ [ch])) _
    rw [hName]
    exact naming_first rfl (token ch)
  · rintro (hStated | hLong)
    · exact hStated
    · have hNamed : hfContentLen <+: lower (v.key ++ [ch]) := hLong
      rw [hName] at hNamed
      exact absurd hNamed hShort

theorem AtName.step (h : AtName p v) (hToken : token ch ≠ 0) (hGo : fieldSwitch p ch (token ch) = .go q) :
    AtName q (v.extend .headerField ch) := by
  obtain ⟨stated, hNaming, hStated, hFlag⟩ := h.naming
  obtain ⟨hChunked, hLength, hKept, hNew⟩ := fieldSwitch_framed hGo
  have hSpace := (ne_lineEnd_of_token hToken).2.2
  have hName : lower (v.key ++ [ch]) = lower v.key ++ [token ch] := lower_snoc hToken v.key
  have hNext : Naming stated (lower v.key ++ [token ch]) q := by
    rcases hNaming.step (token ch) hSpace with ⟨p', hGoes, hOn⟩ | ⟨⟨p', e, hFails⟩, -⟩
    · rw [hGo] at hGoes
      cases hGoes
      exact hOn
    · rw [hGo] at hFails
      cases hFails
  refine ⟨h.value, ?_, ⟨stated, ?_, hStated, ?_⟩, ?_⟩
  · show NamesCoding (lower (v.key ++ [ch])) _
    rw [hName]
    exact h.coding.step hSpace hGo
  · show Naming stated (lower (v.key ++ [ch])) _
    rw [hName]
    exact hNext
  · rintro (hBefore | hLong)
    · exact hKept (hFlag (.inl hBefore))
    · have hNamed : hfContentLen <+: lower (v.key ++ [ch]) := hLong
      rw [hName] at hNamed
      rcases List.prefix_concat_iff.mp hNamed with hWhole | hBefore
      · -- the name is `content-length` with this character
        have hNow := hNext.contentLength_iff.mpr hWhole.symm
        refine hNew hNow fun hState => ?_
        have hRead := hNaming.contentLength_iff.mp hState
        have hLengths := congrArg List.length hWhole
        rw [hRead, List.length_append, List.length_singleton] at hLengths
        omega
      · exact hKept (hFlag (.inr hBefore))
  · exact
      { coding := fun hAlike => hChunked.trans (h.framing.coding hAlike)
        length :=
          { length := hLength.symm ▸ h.framing.length.length
            flagged := fun hSome => hKept (h.framing.length.flagged hSome) } }

/-- What is known behind the colon, before the value. -/
structure AtColon (p : Fields) (v : Assembly) : Prop where
  value : v.value = []
  coding : p.headerState = .transferEncoding ↔ lower v.key = hfTransferEncoding
  unmatched : p.headerState ≠ .transferEncodingChunked
  length : p.headerState = .contentLength ↔ lower v.key = hfContentLen
  once : lower v.key = hfContentLen → lengthsIn v.headers = [] ∧ p.flags.contentlength = true
  framing : FramingOf p v.headers

theorem AtName.colon (h : AtName p v) : AtColon p v := by
  obtain ⟨stated, hNaming, hStated, hFlag⟩ := h.naming
  refine ⟨h.value, h.coding.state_iff, h.coding.unmatched, hNaming.contentLength_iff, fun hName => ?_, h.framing⟩
  have hLong : hfContentLen <+: lower v.key := hName ▸ List.prefix_refl _
  refine ⟨?_, hFlag (.inr hLong)⟩
  by_contra hSome
  have hTwice := hStated hSome
  rw [hNaming.once hLong] at hTwice
  cases hTwice

theorem AtColon.goto (h : AtColon p v) (s : State) : AtColon (p.updateState s) v :=
  { h with framing := h.framing.of_framed ⟨rfl, rfl, rfl⟩ }

/-! ### The value -/

/-- The value has a blank in it. -/
def Folded (value : ByteString) : Prop := SP ∈ value ∨ HT ∈ value

theorem Folded.append (h : Folded value) (more : ByteString) : Folded (value ++ more) :=
  h.imp (List.mem_append_left more) (List.mem_append_left more)

theorem Folded.ne_codingWord (h : Folded value) : lower value ≠ codingWord := by
  intro hWord
  rcases h with hBlank | hBlank
  all_goals
    have hMem := List.mem_map_of_mem (f := toLower) hBlank
    rw [← lower, hWord] at hMem
    revert hMem
    decide

/-- The digits of a content length make `n`, the spaces among them left out. -/
structure Totals (n : Nat) (value : ByteString) : Prop extends Measures n value where
  total : n = decimal (value.filter isDigit)
  known : n < ullongMax

theorem totals_first (h : isNum ch = true) : Totals (digitValue ch) [ch] where
  toMeasures := measures_first h
  total := by
    have hDigit : isDigit ch = true := h
    simp [hDigit, decimal]
  known := Nat.lt_of_le_of_lt (digitValue_le h) (by decide)

theorem Totals.more {n : Nat} (h : Totals n value) (hNum : isNum ch = true) (hRoom : n ≤ (ullongMax - 10) / 10) :
    Totals (n * 10 + digitValue ch) (value ++ [ch]) where
  toMeasures := h.toMeasures.more hNum hRoom
  total := by
    have hDigit : isDigit ch = true := hNum
    have hOne : [ch].filter isDigit = [ch] := by simp [hDigit]
    rw [List.filter_append, hOne, decimal_concat, ← h.total]
  known := by
    have hLe := digitValue_le (c := ch) hNum
    have hMost : (ullongMax - 10) / 10 * 10 + 9 < ullongMax := by decide
    omega

theorem Totals.blank {n : Nat} (h : Totals n value) : Totals n (value ++ [SP]) where
  toMeasures := h.toMeasures.blank
  total := by
    have hNone : [SP].filter isDigit = [] := by decide
    rw [List.filter_append, hNone, List.append_nil]
    exact h.total
  known := h.known

theorem Totals.stoull_eq {n m : Nat} (h : Totals n value) (hSolid : Solid value) (hReads : stoull value = .ok m) :
    m = n := by
  obtain ⟨c, rest, rfl, hDigit⟩ := h.digit
  rw [stoull_of_digit hDigit] at hReads
  split at hReads
  · cases hReads
  · cases hReads
    exact hSolid.symm.trans h.total.symm

theorem padded_of_spaces {n : Nat} (h : lower value = codingWord ++ List.replicate n SP)
    (hOther : lower value ≠ codingWord) : Padded value := by
  refine ⟨hOther, h ▸ List.prefix_append _ _, fun b hMem => ?_⟩
  rw [h, List.drop_left] at hMem
  exact List.eq_of_mem_replicate hMem

/-- What is known within a value, with `h` matched so far. -/
structure AtValue (p : Fields) (h : HeaderState) (v : Assembly) : Prop where
  chunked : AllAlike v.headers → p.flags.chunked = codedIn v.headers
  coding : lower v.key = hfTransferEncoding → ReadsCoding (lower v.value) p h ∨ h = .general ∧ Folded v.value
  other : lower v.key ≠ hfTransferEncoding → uncoded h = true
  length : lower v.key = hfContentLen →
    h = .contentLength ∧ Totals p.contentLength v.value ∧ lengthsIn v.headers = [] ∧ p.flags.contentlength = true
  plain : lower v.key ≠ hfContentLen → h ≠ .contentLength ∧ LengthOf p v.headers

theorem ReadsCoding.of_index {read : ByteString} (hReads : ReadsCoding read p h) (hIndex : q.index = p.index) :
    ReadsCoding read q h := by
  cases hReads with
  | onTrack hPrefix hShort hAt hState => exact .onTrack hPrefix hShort (hIndex ▸ hAt) hState
  | whole n hRead hState => exact .whole n hRead hState
  | off hNot hState => exact .off hNot hState

theorem AtValue.of_framed (hValue : AtValue p h v) (hSame : FramedAs p q) (hIndex : q.index = p.index) :
    AtValue q h v where
  chunked hAlike := hSame.chunked.trans (hValue.chunked hAlike)
  coding hName := (hValue.coding hName).imp (fun hReads => hReads.of_index hIndex) id
  other := hValue.other
  length hName := by
    obtain ⟨hState, hCounts, hOnce, hFlag⟩ := hValue.length hName
    exact ⟨hState, hSame.length.symm ▸ hCounts, hOnce, hSame.flagged.trans hFlag⟩
  plain hName := (hValue.plain hName).imp id fun hLength => hLength.of_framed hSame

/-- The first byte of a value. -/
theorem valueStartSwitch_framed (hGo : valueStartSwitch p ch c = .go q) :
    q.flags.chunked = p.flags.chunked ∧ q.flags.contentlength = p.flags.contentlength ∧
      (p.headerState ≠ .contentLength → q.headerState ≠ .contentLength ∧ q.contentLength = p.contentLength) := by
  unfold valueStartSwitch at hGo
  split at hGo
  case h_3 hState =>
    split at hGo
    · cases hGo
    · cases hGo
      exact ⟨rfl, rfl, fun hNot => absurd hState hNot⟩
  case h_5 hState =>
    cases hGo
    exact ⟨rfl, rfl, fun hNot => ⟨hNot, rfl⟩⟩
  case h_1 | h_6 =>
    cases hGo
    exact ⟨rfl, rfl, fun _ => ⟨fun hState => (by cases hState), rfl⟩⟩
  case h_2 | h_4 =>
    cases hGo
    refine ⟨rfl, rfl, fun _ => ⟨fun hState => ?_, rfl⟩⟩
    dsimp only at hState
    repeat' split at hState
    all_goals cases hState

/-- A further byte of a value. -/
theorem valueSwitch_framed {r : Fields × HeaderState} (hGo : valueSwitch p h ch c = .go r) :
    r.1.flags.chunked = p.flags.chunked ∧ r.1.flags.contentlength = p.flags.contentlength ∧
      (h ≠ .contentLength → r.2 ≠ .contentLength ∧ r.1.contentLength = p.contentLength) := by
  have hMatch : ∀ (constant : ByteString) {done other : HeaderState}, done ≠ .contentLength →
      other ≠ .contentLength → h ≠ .contentLength → (matchNext p c constant done other h).2 ≠ .contentLength := by
    intro constant done other hDone hOther hStay
    unfold matchNext
    dsimp only
    split
    · exact hOther
    split
    · exact hDone
    · exact hStay
  unfold valueSwitch at hGo
  split at hGo
  all_goals
    repeat' split at hGo
  all_goals first
    | cases hGo
      exact ⟨(matchNext_framed p c _ _ _ _).chunked, (matchNext_framed p c _ _ _ _).flagged,
        fun hNot => ⟨hMatch _ (by decide) (by decide) hNot, (matchNext_framed p c _ _ _ _).length⟩⟩
    | cases hGo
      exact ⟨rfl, rfl, fun hNot => ⟨hNot, rfl⟩⟩
    | cases hGo
      exact ⟨rfl, rfl, fun _ => ⟨fun hState => (by cases hState), rfl⟩⟩
    | cases hGo
      exact ⟨rfl, rfl, fun hNot => absurd rfl hNot⟩
    | cases hGo

theorem AtColon.start (hColon : AtColon p v)
    (hGo : valueStartSwitch { p with state := .headerValue, index := 0 } ch (LOWER ch) = .go q) :
    AtValue q q.headerState ((v.start .headerValue).extend .headerValue ch) := by
  obtain ⟨hChunked, hFlagged, hOther⟩ := valueStartSwitch_framed hGo
  have hRead : v.value ++ [ch] = [ch] := by rw [hColon.value, List.nil_append]
  refine
    { chunked := fun hAlike => hChunked.trans (hColon.framing.coding hAlike)
      coding := fun hName => .inl ?_
      other := fun hName => ?_
      length := fun hName => ?_
      plain := fun hName => ?_ }
  · show ReadsCoding (lower (v.value ++ [ch])) q q.headerState
    rw [hRead]
    exact readsCoding_start (hColon.coding.mpr hName) hGo
  · exact valueStartSwitch_uncoded (p := { p with state := .headerValue, index := 0 })
      (fun hState => hName (hColon.coding.mp hState)) hGo
  · obtain ⟨hOnce, hFlag⟩ := hColon.once hName
    obtain ⟨hNum, hKept, hLength⟩ :=
      valueStartSwitch_length (p := { p with state := .headerValue, index := 0 }) (hColon.length.mpr hName) hGo
    refine ⟨hKept, ?_, hOnce, hFlagged.trans hFlag⟩
    show Totals q.contentLength (v.value ++ [ch])
    rw [hRead, hLength]
    exact totals_first hNum
  · obtain ⟨hState, hLength⟩ := hOther fun hNamed => hName (hColon.length.mp hNamed)
    exact ⟨hState, hColon.framing.length.of_framed ⟨hChunked, hFlagged, hLength⟩⟩

theorem AtValue.step {r : Fields × HeaderState} (hValue : AtValue p h v)
    (hGo : valueSwitch p h ch (LOWER ch) = .go r) : AtValue r.1 r.2 (v.extend .headerValue ch) := by
  obtain ⟨hChunked, hFlagged, hOther⟩ := valueSwitch_framed hGo
  refine
    { chunked := fun hAlike => hChunked.trans (hValue.chunked hAlike)
      coding := fun hName => ?_
      other := fun hName => valueSwitch_uncoded (hValue.other hName) hGo
      length := fun hName => ?_
      plain := fun hName => ?_ }
  · show ReadsCoding (lower (v.value ++ [ch])) r.1 r.2 ∨ r.2 = .general ∧ Folded (v.value ++ [ch])
    rcases hValue.coding hName with hReads | ⟨hGeneral, hFolded⟩
    · left
      rw [lower_append]
      exact hReads.step hGo
    · right
      subst hGeneral
      cases hGo
      exact ⟨rfl, hFolded.append [ch]⟩
  · obtain ⟨hState, hCounts, hOnce, hFlag⟩ := hValue.length hName
    subst hState
    have hNext : r.2 = .contentLength ∧ Totals r.1.contentLength (v.value ++ [ch]) := by
      simp only [valueSwitch] at hGo
      split at hGo
      case isTrue hBlank =>
        cases hGo
        rw [hBlank]
        exact ⟨rfl, hCounts.blank⟩
      split at hGo
      · cases hGo
      case isFalse hNum =>
        split at hGo
        · cases hGo
        case isFalse hRoom =>
          cases hGo
          exact ⟨rfl, hCounts.more (by simpa using hNum) (not_lt.mp hRoom)⟩
    exact ⟨hNext.1, hNext.2, hOnce, hFlagged.trans hFlag⟩
  · obtain ⟨hState, hLength⟩ := hValue.plain hName
    obtain ⟨hNext, hSame⟩ := hOther hState
    exact ⟨hNext, hLength.of_framed ⟨hChunked, hFlagged, hSame⟩⟩

/-! ### The end of a line -/

/-- What the end of a line adds to the framing. -/
theorem finishHeader_framed (p : Fields) :
    (finishHeader p).flags.chunked = (p.flags.chunked || decide (p.headerState = .transferEncodingChunked)) ∧
      (finishHeader p).flags.contentlength = p.flags.contentlength ∧
      (finishHeader p).contentLength = p.contentLength := by
  unfold finishHeader
  split
  case h_5 hKeepAlive hClose hCoded hUpgrade =>
    rw [decide_eq_false hCoded, Bool.or_false]
    exact ⟨rfl, rfl, rfl⟩
  all_goals
    rename_i hState
    simp [hState]

/-- The parser has matched the coding exactly if the line states it, where both read it alike. -/
theorem AtValue.coded (hValue : AtValue p p.headerState v) (hAlike : ReadAlike (v.key, v.value)) :
    p.headerState = .transferEncodingChunked ↔ Coded (v.key, v.value) := by
  by_cases hName : lower v.key = hfTransferEncoding
  · constructor
    · intro hState
      refine ⟨hName, ?_⟩
      by_contra hOther
      rcases hValue.coding hName with hReads | ⟨hGeneral, -⟩
      · obtain ⟨n, hRead⟩ := hReads.state_iff.mp hState
        exact hAlike.coding hName (padded_of_spaces hRead fun hWord => hOther hWord)
      · rw [hGeneral] at hState
        cases hState
    · rintro ⟨-, hWord⟩
      rcases hValue.coding hName with hReads | ⟨-, hFolded⟩
      · apply hReads.state_iff.mpr
        exact ⟨0, by rw [List.replicate_zero, List.append_nil]; exact hWord⟩
      · exact absurd hWord hFolded.ne_codingWord
  · refine iff_of_false (fun hState => ?_) fun hCoded => hName hCoded.1
    have hUncoded := hValue.other hName
    rw [hState] at hUncoded
    cases hUncoded

theorem AtValue.finish (hValue : AtValue p p.headerState v) :
    FramingOf (finishHeader p) (v.headers ++ [(v.key, v.value)]) := by
  obtain ⟨hChunked, hFlagged, hSame⟩ := finishHeader_framed p
  refine ⟨fun hAlike => ?_, ?_⟩
  · rw [hChunked, codedIn_snoc, hValue.chunked hAlike.front, decide_eq_decide.mpr (hValue.coded hAlike.last)]
  · by_cases hName : lower v.key = hfContentLen
    · obtain ⟨hState, hCounts, hOnce, hFlag⟩ := hValue.length hName
      have hLengths : lengthsIn (v.headers ++ [(v.key, v.value)]) = [v.value] := by
        rw [lengthsIn_snoc, hOnce, if_pos hName, List.nil_append]
      refine ⟨fun hAlike => .inr ⟨v.value, hLengths, fun n hReads => ?_⟩, fun _ => hFlagged.trans hFlag⟩
      rw [hSame]
      exact ⟨hCounts.stoull_eq (hAlike.last.length hName) hReads, hCounts.known.ne⟩
    · obtain ⟨-, hLength⟩ := hValue.plain hName
      have hLengths : lengthsIn (v.headers ++ [(v.key, v.value)]) = lengthsIn v.headers := by
        rw [lengthsIn_snoc, if_neg hName, List.append_nil]
      refine ⟨fun hAlike => ?_, fun hSome => hFlagged.trans (hLength.flagged (hLengths ▸ hSome))⟩
      rw [hLengths, hSame]
      exact hLength.length hAlike.front

/-- A line that ends without a value. -/
theorem AtColon.finish (hColon : AtColon p v) : FramingOf (finishHeader p) (v.headers ++ [(v.key, [])]) := by
  obtain ⟨hChunked, hFlagged, hSame⟩ := finishHeader_framed p
  refine ⟨fun hAlike => ?_, ?_⟩
  · have hNot : ¬ Coded (v.key, []) := fun hCoded =>
      absurd (show lower [] = codingWord from hCoded.2) (by decide)
    rw [hChunked, codedIn_snoc, decide_eq_false hNot, decide_eq_false hColon.unmatched,
      hColon.framing.coding hAlike.front]
  · by_cases hName : lower v.key = hfContentLen
    · obtain ⟨hOnce, hFlag⟩ := hColon.once hName
      have hLengths : lengthsIn (v.headers ++ [(v.key, [])]) = [[]] := by
        rw [lengthsIn_snoc, hOnce, if_pos hName, List.nil_append]
      exact ⟨fun _ => .inr ⟨[], hLengths, fun n hReads => (by cases hReads)⟩, fun _ => hFlagged.trans hFlag⟩
    · have hLengths : lengthsIn (v.headers ++ [(v.key, [])]) = lengthsIn v.headers := by
        rw [lengthsIn_snoc, if_neg hName, List.append_nil]
      refine ⟨fun hAlike => ?_, fun hSome => hFlagged.trans (hColon.framing.length.flagged (hLengths ▸ hSome))⟩
      rw [hLengths, hSame]
      exact hColon.framing.length.length hAlike.front

/-! ### States -/

/-- Nothing has been read that frames the message. -/
structure Unstated (p : Fields) : Prop where
  chunked : p.flags.chunked = false
  length : p.contentLength = ullongMax

theorem Unstated.framing (h : Unstated p) : FramingOf p [] where
  coding _ := h.chunked
  length := ⟨fun _ => .inl ⟨rfl, h.length⟩, fun hSome => absurd rfl hSome⟩

/-- What is known between two lines. -/
structure AtBreak (p : Fields) (v : Assembly) : Prop where
  framing : FramingOf p v.flush.headers
  held : v.pending = false → v.key = [] ∧ v.value = []

/-- What is known of a header section, and of the first line before it, in each state. -/
def AtState (p : Fields) (v : Assembly) : Prop :=
  match p.state with
  | .headerField => AtName p v
  | .headerValueDiscardWs | .headerValueDiscardWsAlmostDone | .headerValueDiscardLws | .headerValueStart => AtColon p v
  | .headerValue | .headerAlmostDone | .headerValueLws => AtValue p p.headerState v ∧ v.pending = true
  | .headerFieldStart | .headersAlmostDone => AtBreak p v
  | s => part s = some .line → Unstated p

/-- The headers of a message have been completed with the framing that they state, which is one. -/
def Attested (v : Assembly) : Prop :=
  ∀ q, v.framing = some q → FramingOf q v.headers ∧ (q.flags.chunked && q.flags.contentlength) = false

/-- The parser follows the lines. -/
structure Abides (p : Fields) (v : Assembly) : Prop where
  told : Attested v
  line : p.flags.trailing = false → AtState p v

theorem Attested.of_same (h : Attested v) (hFraming : w.framing = v.framing) (hHeaders : w.headers = v.headers) :
    Attested w := by
  intro q hSome
  rw [hHeaders]
  exact h q (hFraming.symm.trans hSome)

theorem flush_headers (hOpen : v.framing = none) (hPending : v.pending = true) :
    v.flush.headers = v.headers ++ [(v.key, v.value)] := by
  simp [Assembly.flush, hOpen, hPending]

theorem Attested.flush (h : Attested v) : Attested v.flush := by
  unfold Assembly.flush
  split
  · exact h
  split
  · exact h.of_same rfl rfl
  case isFalse hOpen =>
    intro q hSome
    have hFraming : v.framing = some q := hSome
    rw [hFraming] at hOpen
    exact absurd rfl hOpen

/-! ### Outside the header lines -/

/-- The parser comes to no line but the first, and to no header section but at its start, unless to one
of trailers. -/
structure AtOutset (p : Fields) : Prop where
  line : part p.state = some .line → Unstated p
  header : part p.state = some .header → p.flags.trailing = false → p.state = .headerFieldStart ∧ Unstated p

/-- No header line is at hand, nor behind in an open section. -/
def Outside (v : Assembly) : Prop := v.framing.isSome = true ∨ v.Unlined

/-- `w` has the lines of `v`. -/
structure SameLines (v w : Assembly) : Prop where
  framing : w.framing = v.framing
  headers : w.headers = v.headers
  pending : w.pending = v.pending
  key : w.key = v.key
  value : w.value = v.value

theorem Outside.of_same (h : Outside v) (hSame : SameLines v w) : Outside w := by
  rcases h with hFraming | hUnlined
  · exact .inl (hSame.framing.symm ▸ hFraming)
  · exact .inr ⟨hSame.pending.trans hUnlined.pending, hSame.headers.trans hUnlined.headers,
      hSame.key.trans hUnlined.key, hSame.value.trans hUnlined.value⟩

theorem Unstated.opens (h : Unstated p) (hHeader : part p.state = some .header → p.state = .headerFieldStart) :
    AtOutset p :=
  ⟨fun _ => h, fun hPart _ => ⟨hHeader hPart, h⟩⟩

theorem AtBreak.of_framed (h : AtBreak p v) (hSame : FramedAs p q) : AtBreak q v :=
  ⟨h.framing.of_framed hSame, h.held⟩

theorem AtState.colon (h : AtState p v) (hState : p.state = .headerValueDiscardWs ∨
      p.state = .headerValueDiscardWsAlmostDone ∨ p.state = .headerValueDiscardLws ∨ p.state = .headerValueStart) :
    AtColon p v := by
  unfold AtState at h
  rcases hState with hs | hs | hs | hs
  all_goals
    rw [hs] at h
    exact h

theorem AtState.within (h : AtState p v) (hState : p.state = .headerValue ∨ p.state = .headerAlmostDone ∨
      p.state = .headerValueLws) : AtValue p p.headerState v ∧ v.pending = true := by
  unfold AtState at h
  rcases hState with hs | hs | hs
  all_goals
    rw [hs] at h
    exact h

theorem AtState.between (h : AtState p v) (hState : p.state = .headerFieldStart ∨ p.state = .headersAlmostDone) :
    AtBreak p v := by
  unfold AtState at h
  rcases hState with hs | hs
  all_goals
    rw [hs] at h
    exact h

theorem AtState.name (h : AtState p v) (hState : p.state = .headerField) : AtName p v := by
  unfold AtState at h
  rw [hState] at h
  exact h

theorem Abides.line_unstated (h : Abides p v) (hPlaced : Placed p v) (hPart : part p.state = some .line) :
    Unstated p := by
  have hState := h.line (hPlaced.inLine hPart).trailing
  unfold AtState at hState
  split at hState
  case h_11 => exact hState hPart
  all_goals
    case _ hs =>
      rw [hs] at hPart
      cases hPart

/-- A mark that is set again for the next buffer. -/
theorem Abides.restart (h : Abides p v) (hPlaced : Placed p v) :
    Abides p ((startMark p.state).elim v fun m => v.start m) := by
  cases hs : p.state
  all_goals simp only [startMark, Option.elim_none, Option.elim_some]
  all_goals first
    | exact h
    | skip
  case headerField =>
    have hPending := (hPlaced.inHeader (by rw [hs]; rfl)).field hs
    have hSame : v.flush = v := Impl.flush_idle hPending
    refine ⟨h.told.flush, fun hOpen => ?_⟩
    have hName := (h.line hOpen).name hs
    unfold AtState
    rw [hs]
    have hStart : v.start .headerField = { v with misplaced := v.misplaced || !v.begun } := by
      show ({ v.flush with misplaced := v.misplaced || !v.begun } : Assembly) = _
      rw [hSame]
    rw [hStart]
    exact ⟨hName.value, hName.coding, hName.naming, hName.framing⟩
  case headerValue =>
    refine ⟨h.told, fun hOpen => ?_⟩
    obtain ⟨hValue, -⟩ := (h.line hOpen).within (.inl hs)
    unfold AtState
    rw [hs]
    exact ⟨{ hValue with }, rfl⟩
  all_goals
    have hLine : part p.state = some .line := by rw [hs]; rfl
    refine ⟨h.told, fun _ => ?_⟩
    unfold AtState
    rw [hs]
    exact fun _ => h.line_unstated hPlaced hLine

end Doormat.Http
