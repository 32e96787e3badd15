import Doormat.Http.HeaderLine
import Doormat.Http.Direction

/-! The values that a decoder hands to `std::stoull`. The parser has judged a content length
byte by byte before the codec reads it again. -/
namespace Doormat.Http

open Bytes Doormat.Parser

variable {υ : Type} {cb : Callbacks υ} {v w a : Assembly} {p q : Fields} {ch c : UInt8} {cur : Option Mark}

/-! ### The name -/

/-- The parser after the characters `read` of a name, as long as it may be `content-length`. -/
def OnTrack (read : ByteString) (p : Fields) : Prop :=
  read <+: hfContentLen → p.headerState = lengthState read.length ∧ p.index + 1 = read.length

theorem onTrack_first (p : Fields) (c : UInt8) :
    OnTrack [c] { p with state := .headerField, index := 0, headerState := firstHeaderState c } := by
  intro hPrefix
  have hFirst := (prefix_snoc (List.nil_prefix (l := hfContentLen)) c).mp hPrefix
  have hHead : hfContentLen[0]? = some 'c'.toUInt8 := by decide
  rw [List.length_nil, hHead] at hFirst
  obtain rfl := Option.some.inj hFirst
  exact ⟨rfl, rfl⟩

/-- The outcome of matching `content-length` further. -/
theorem fieldSwitch_matching {read : ByteString} (hState : p.headerState = .matchingContentLength)
    (hIndex : p.index + 1 = read.length) (hc : hfContentLen[read.length]? = some c)
    (hGo : fieldSwitch p ch c = .go q) :
    q.index = p.index + 1 ∧
      q.headerState = if read.length = 13 then .contentLength else .matchingContentLength := by
  have hName : ofString "content-length" = hfContentLen := rfl
  simp only [fieldSwitch] at hGo
  rw [hState] at hGo
  simp only [hName] at hGo
  by_cases hLast : read.length = 13
  · rw [matchNext_done hIndex hc (by rw [hLast, length_hfContentLen])] at hGo
    simp only [if_true] at hGo
    split at hGo
    · cases hGo
    · cases hGo
      exact ⟨rfl, by rw [if_pos hLast]⟩
  · rw [matchNext_more hIndex hc (by rw [length_hfContentLen]; omega)] at hGo
    simp only [reduceCtorEq, if_false] at hGo
    cases hGo
    exact ⟨rfl, by rw [if_neg hLast]⟩

theorem OnTrack.step {read : ByteString} (hTrack : OnTrack read p) (hPos : read ≠ [])
    (hGo : fieldSwitch p ch c = .go q) : OnTrack (read ++ [c]) q := by
  intro hLong
  have hPrefix : read <+: hfContentLen := (List.prefix_append read [c]).trans hLong
  have hc := (prefix_snoc hPrefix c).mp hLong
  obtain ⟨hState, hIndex⟩ := hTrack hPrefix
  have hLength : (read ++ [c]).length = read.length + 1 := by simp
  have hLt : read.length < 14 := by
    have hLe := hLong.length_le
    rw [hLength, length_hfContentLen] at hLe
    omega
  have hRead := List.length_pos_of_ne_nil hPos
  have hCases : read.length = 1 ∨ read.length = 2 ∨ read.length = 3 ∨ 3 < read.length := by omega
  rw [hLength]
  rcases hCases with hk | hk | hk | hk
  · rw [hk] at hc hState
    obtain rfl : c = 'o'.toUInt8 := (Option.some.inj hc).symm
    simp only [fieldSwitch, hState, lengthState, if_true] at hGo
    cases hGo
    exact ⟨by rw [hk]; rfl, by rw [← hIndex]⟩
  · rw [hk] at hc hState
    obtain rfl : c = 'n'.toUInt8 := (Option.some.inj hc).symm
    simp only [fieldSwitch, hState, lengthState, Nat.reduceEqDiff, if_true, if_false] at hGo
    cases hGo
    exact ⟨by rw [hk]; rfl, by rw [← hIndex]⟩
  · rw [hk] at hc hState
    obtain rfl : c = 't'.toUInt8 := (Option.some.inj hc).symm
    simp only [fieldSwitch, hState, lengthState, Nat.reduceEqDiff, if_true, if_false] at hGo
    cases hGo
    exact ⟨by rw [hk]; rfl, by rw [← hIndex]⟩
  · have hMatching : p.headerState = .matchingContentLength := by
      rw [hState, lengthState, if_neg (by omega), if_neg (by omega), if_neg (by omega), if_neg (by omega)]
    obtain ⟨hNext, hSame⟩ := fieldSwitch_matching hMatching hIndex hc hGo
    refine ⟨?_, by rw [hNext, hIndex]⟩
    have hLate : ∀ k, k < 4 → ¬ read.length + 1 = k := by
      intro k hk
      omega
    rw [hSame, lengthState, if_neg (hLate 1 (by decide)), if_neg (hLate 2 (by decide)), if_neg (hLate 3 (by decide))]
    by_cases hLast : read.length = 13
    · rw [if_pos hLast, if_pos (by rw [hLast])]
    · rw [if_neg hLast, if_neg (fun hEq => hLast (Nat.succ_injective hEq))]

/-! ### The value -/

/-- A value whose leading digits make no more than the `n` that the parser, which skips blanks,
has read from it. -/
structure Measures (n : Nat) (value : ByteString) : Prop where
  digit : ∃ c rest, value = c :: rest ∧ isDigit c = true
  covers : decimal (value.takeWhile isDigit) ≤ n
  fits : n < sizeLimit

theorem Measures.stoull {n : Nat} {value : ByteString} (h : Measures n value) :
    ∃ m, Bytes.stoull value = .ok m := by
  obtain ⟨c, rest, rfl, hDigit⟩ := h.digit
  refine ⟨_, (stoull_of_digit hDigit rest).trans (if_neg ?_)⟩
  exact Nat.not_le.mpr (Nat.lt_of_le_of_lt h.covers h.fits)

theorem measures_first (h : isNum ch = true) : Measures (digitValue ch) [ch] where
  digit := ⟨ch, [], rfl, h⟩
  covers := by
    have hDigit : isDigit ch = true := h
    simp [hDigit, decimal]
  fits := Nat.lt_of_le_of_lt (digitValue_le h) (by decide)

theorem Measures.more {n : Nat} {value : ByteString} (h : Measures n value) (hNum : isNum ch = true)
    (hRoom : n ≤ (ullongMax - 10) / 10) : Measures (n * 10 + digitValue ch) (value ++ [ch]) where
  digit := by
    obtain ⟨c, rest, rfl, hDigit⟩ := h.digit
    exact ⟨c, rest ++ [ch], rfl, hDigit⟩
  covers := by
    have hDigit : isDigit ch = true := hNum
    have hCovers := h.covers
    rw [List.takeWhile_append]
    split
    case isTrue hAll =>
      have hWhole : value.takeWhile isDigit = value :=
        (List.takeWhile_prefix isDigit).eq_of_length hAll
      rw [hWhole] at hCovers
      have hOne : [ch].takeWhile isDigit = [ch] := by simp [hDigit]
      rw [hOne, decimal_concat]
      omega
    case isFalse => omega
  fits := by
    have hLe := digitValue_le (c := ch) hNum
    have hMost : (ullongMax - 10) / 10 * 10 + 9 < sizeLimit := by decide
    omega

theorem Measures.blank {n : Nat} {value : ByteString} (h : Measures n value) : Measures n (value ++ [SP]) where
  digit := by
    obtain ⟨c, rest, rfl, hDigit⟩ := h.digit
    exact ⟨c, rest ++ [SP], rfl, hDigit⟩
  covers := by
    have hSame : (value ++ [SP]).takeWhile isDigit = value.takeWhile isDigit := by
      rw [List.takeWhile_append]
      split
      case isTrue hAll =>
        rw [(List.takeWhile_prefix isDigit).eq_of_length hAll]
        simp [show isDigit SP = false by decide]
      case isFalse => rfl
    rw [hSame]
    exact h.covers
  fits := h.fits

/-- What the parser takes for a byte of a content length. -/
theorem valueSwitch_length {r : Fields × HeaderState} {value : ByteString} (h : Measures p.contentLength value)
    (hGo : valueSwitch p .contentLength ch c = .go r) :
    r.2 = .contentLength ∧ Measures r.1.contentLength (value ++ [ch]) := by
  simp only [valueSwitch] at hGo
  split at hGo
  case isTrue hBlank =>
    cases hGo
    rw [hBlank]
    exact ⟨rfl, h.blank⟩
  split at hGo
  · cases hGo
  case isFalse hNum =>
    split at hGo
    · cases hGo
    case isFalse hRoom =>
      cases hGo
      exact ⟨rfl, h.more (by simpa using hNum) (Nat.not_lt.mp hRoom)⟩

/-! ### Lines -/

/-- A line that names a content length gives one that `std::stoull` reads. -/
def Readable (name value : ByteString) : Prop :=
  lower name = hfContentLen → ∃ n, stoull value = .ok n

/-- So does every header line that is over. -/
def AllReadable (v : Assembly) : Prop := ∀ line ∈ v.headers, Readable line.1 line.2

/-- What is known of the line at hand of a header section, in each state. -/
def AtLine (p : Fields) (v : Assembly) : Prop :=
  match p.state with
  | .headerField => v.value = [] ∧ v.key ≠ [] ∧ OnTrack (lower v.key) p
  | .headerValueDiscardWs | .headerValueDiscardWsAlmostDone | .headerValueDiscardLws | .headerValueStart =>
      v.value = [] ∧ (lower v.key = hfContentLen → p.headerState = .contentLength)
  | .headerValue =>
      lower v.key = hfContentLen → p.headerState = .contentLength ∧ Measures p.contentLength v.value
  | .headerAlmostDone | .headerValueLws =>
      (lower v.key = hfContentLen → p.headerState = .contentLength ∧ ∃ n, stoull v.value = .ok n) ∧
        (v.pending = false → v.key = [] ∧ v.value = [])
  | .headerFieldStart => Readable v.key v.value ∧ (v.pending = false → v.key = [] ∧ v.value = [])
  | .headersAlmostDone => v.value ≠ [] → Readable v.key v.value
  | _ => True

/-- Every line states a length that can be read, as far as it has been read. -/
structure Lengths (p : Fields) (v : Assembly) : Prop where
  headers : AllReadable v
  line : p.flags.trailing = false → AtLine p v

/-- A step that keeps to it. -/
abbrev Lengthing (prog : Prog) (ch : UInt8) (cur : Option Mark) (v : Assembly) : Prop :=
  prog.wp assembler AllReadable ch (fun p loop _ v => Lengths (loop.settle p) v) cur v

theorem ne_hfContentLen_nil : lower [] ≠ hfContentLen := by decide

theorem AllReadable.of_headers (h : AllReadable v) (hSame : w.headers = v.headers) : AllReadable w := by
  intro line hMem
  rw [hSame] at hMem
  exact h line hMem

theorem flush_readable (h : AllReadable v) (hLine : v.framing = none → Readable v.key v.value) :
    AllReadable v.flush := by
  unfold Assembly.flush
  split
  · exact h
  split
  · exact h
  case isFalse hFraming =>
    intro line hMem
    rcases List.mem_append.mp hMem with hOld | hNew
    · exact h line hOld
    · rw [List.mem_singleton.mp hNew]
      exact hLine (by simpa using hFraming)

theorem flush_clear (h : v.pending = false → v.key = [] ∧ v.value = []) : v.flush.key = [] ∧ v.flush.value = [] := by
  unfold Assembly.flush
  split
  case isTrue hPending => exact h (by simpa using hPending)
  split
  · exact ⟨rfl, rfl⟩
  · exact ⟨rfl, rfl⟩

/-! ### Outside the header lines -/

/-- A program that sets no mark of a header line, unless it fails at once, completes no headers,
and leaves the loop with no mark to set again. -/
def Asides : Prog → Prop
  | .next _ _ | .fail _ _ | .abort => True
  | .leave p => startMark p.state = none
  | .mark m k => Fails k ∨ (m ≠ .headerField ∧ m ≠ .headerValue) ∧ Asides k
  | .data _ _ _ _ k | .count _ _ k | .clearNread k | .assertNread _ k | .notify _ _ _ k => Asides k
  | .headersComplete _ _ => False
  | .messageComplete _ k => Asides (k fresh.toFields)

/-- No header line is at hand. -/
def Apart (v : Assembly) : Prop := v.framing.isSome = true ∨ v.key = [] ∧ v.value = []

theorem Apart.lengths (h : Apart v) (hReadable : AllReadable v) (hPlaced : Placed p v)
    (hAdmits : p.state.admits cur) (hCur : cur ≠ some .headerField) : Lengths p v := by
  refine ⟨hReadable, fun hTrailing => ?_⟩
  by_cases hPart : part p.state = some .header
  · have hClear : v.key = [] ∧ v.value = [] := by
      cases h with
      | inl hFraming =>
          rw [((hPlaced.inHeader hPart).unframed hTrailing).framing] at hFraming
          cases hFraming
      | inr hClear => exact hClear
    have hName : lower v.key ≠ hfContentLen := hClear.1 ▸ ne_hfContentLen_nil
    unfold AtLine
    split
    case h_1 hState =>
      rw [hState] at hAdmits
      exact absurd (of_decide_eq_true hAdmits) hCur
    case h_2 | h_3 | h_4 | h_5 => exact ⟨hClear.2, fun h => absurd h hName⟩
    case h_6 => exact fun h => absurd h hName
    case h_7 | h_8 => exact ⟨fun h => absurd h hName, fun _ => hClear⟩
    case h_9 => exact ⟨fun h => absurd h hName, fun _ => hClear⟩
    case h_10 => exact fun _ h => absurd h hName
    case h_11 => trivial
  · unfold AtLine
    split
    case h_11 => trivial
    all_goals
      case _ hState =>
        rw [hState] at hPart
        exact absurd rfl hPart

theorem Apart.start {m : Mark} (h : Apart v) (hMark : m ≠ .headerField ∧ m ≠ .headerValue) :
    Apart (v.start m) := by
  cases m with
  | url | status | body => exact h
  | headerField => exact absurd rfl hMark.1
  | headerValue => exact absurd rfl hMark.2

theorem Apart.extend {m : Mark} (h : Apart v) (hMark : m ≠ .headerField ∧ m ≠ .headerValue) (ch : UInt8) :
    Apart (v.extend m ch) := by
  cases m with
  | url | status | body => exact h
  | headerField => exact absurd rfl hMark.1
  | headerValue => exact absurd rfl hMark.2

theorem start_headers {m : Mark} (hMark : m ≠ .headerField ∧ m ≠ .headerValue) :
    (v.start m).headers = v.headers := by
  cases m with
  | url | status | body | headerValue => rfl
  | headerField => exact absurd rfl hMark.1

@[simp] theorem extend_headers (v : Assembly) (m : Mark) (ch : UInt8) : (v.extend m ch).headers = v.headers := by
  cases m with
  | url | status | body | headerField | headerValue => rfl

@[simp] theorem notify_headers (v : Assembly) (p : Fields) (c : Notification) : (v.notify p c).headers = v.headers := by
  cases c with
  | messageBegin | chunkHeader | chunkComplete => rfl

theorem Apart.notify (h : Apart v) (p : Fields) (c : Notification) : Apart (v.notify p c) := by
  cases c with
  | messageBegin | chunkHeader | chunkComplete => exact h

theorem settle_of_outside {loop : Loop} {n : Nat} (hFits : loop.Fits p.state n) (hAdmits : p.state.admits cur)
    (hCur : cur ≠ some .headerValue) : loop.settle p = p := by
  cases loop with
  | outer | field => rfl
  | value read h skip =>
      rw [hFits.1] at hAdmits
      exact absurd (of_decide_eq_true hAdmits) hCur

theorem aside_lengthing {prog : Prog} {bound n : Nat} {cleared : Bool} (hSound : prog.Sound bound cur cleared n)
    (hAsides : Asides prog) (hPlacing : Placing prog ch cur v) (hReadable : AllReadable v) (hApart : Apart v)
    (hCur : ∀ m, cur = some m → m ≠ .headerField ∧ m ≠ .headerValue) : Lengthing prog ch cur v := by
  induction prog generalizing cur cleared n v with
  | next p loop =>
      obtain ⟨hAdmits, hFits, -⟩ := hSound
      have hField : cur ≠ some .headerField := fun h => (hCur _ h).1 rfl
      have hValue : cur ≠ some .headerValue := fun h => (hCur _ h).2 rfl
      show Lengths (loop.settle p) _
      rw [settle_of_outside hFits hAdmits hValue]
      cases cur with
      | none => exact hApart.lengths hReadable hPlacing hAdmits hField
      | some m =>
          exact (hApart.extend (hCur m rfl) ch).lengths (hReadable.of_headers (extend_headers v m ch)) hPlacing
            hAdmits hField
  | leave p =>
      have hStart : p.state.admits (startMark p.state) := admits_startMark p.state
      rw [show startMark p.state = none from hAsides] at hStart
      exact ⟨hPlacing.1, hApart.lengths hReadable hPlacing.2 hStart (fun h => by cases h)⟩
  | fail | abort => trivial
  | mark m k ih =>
      rcases hAsides with hFails | ⟨hMark, hRest⟩
      · cases k with
        | fail => trivial
        | next | leave | abort | mark | data | count | clearNread | assertNread | notify | headersComplete
          | messageComplete => exact hFails.elim
      · rcases hSound.1 with rfl | rfl
        · exact ih hSound.2 hRest hPlacing (hReadable.of_headers (start_headers hMark)) (hApart.start hMark)
            fun m' h => Option.some.inj h ▸ hMark
        · exact ih hSound.2 hRest hPlacing hReadable hApart hCur
  | data p m inclusive advance k ih =>
      simp only [Prog.wp] at hPlacing ⊢
      simp only [Prog.Sound] at hSound
      split at hPlacing
      case isTrue hm =>
        rw [if_pos hm] at hSound ⊢
        have hHeld : AllReadable (if inclusive = true then assembler.extend m ch v else v) ∧
            Apart (if inclusive = true then assembler.extend m ch v else v) := by
          split
          · exact ⟨hReadable.of_headers (extend_headers v m ch), hApart.extend (hCur m hm) ch⟩
          · exact ⟨hReadable, hApart⟩
        exact ⟨hHeld.1, ih hSound hAsides hPlacing.2 hHeld.1 hHeld.2 (fun m' h => by cases h)⟩
      case isFalse hm =>
        rw [if_neg hm] at hSound ⊢
        exact ih hSound hAsides hPlacing hReadable hApart hCur
  | count p n k ih => exact ih hSound.2.2 hAsides hPlacing hReadable hApart hCur
  | clearNread k ih => exact ih hSound hAsides hPlacing hReadable hApart hCur
  | assertNread n k ih => exact ih hSound.2 hAsides hPlacing hReadable hApart hCur
  | notify p c advance k ih =>
      obtain ⟨hNone, -, hNext⟩ := hPlacing
      have hSame : AllReadable (v.notify p c) := hReadable.of_headers (notify_headers v p c)
      exact ⟨hNone, hSame, ih (hNone ▸ hSound.2) hAsides hNext hSame (hApart.notify p c) fun m h => by cases h⟩
  | headersComplete p k ih => exact hAsides.elim
  | messageComplete p k ih =>
      obtain ⟨hNone, -, hNext⟩ := hPlacing
      have hNew : AllReadable v.messageComplete := fun line hMem => by cases hMem
      exact ⟨hNone, hNew, ih _ (hNone ▸ hSound.2) hAsides hNext hNew (.inr ⟨rfl, rfl⟩) fun m h => by cases h⟩

theorem headersDone_asides (p : Fields) (ch : UInt8) : Asides (headersDone p ch) := by
  unfold headersDone Fields.strictCheck
  split
  · trivial
  show Asides (if _ then _ else _)
  repeat' split
  all_goals trivial

theorem bodyIdentity_asides (p : Fields) : Asides (bodyIdentity p) := by
  unfold bodyIdentity assert
  split
  · refine .inr ⟨⟨by decide, by decide⟩, ?_⟩
    dsimp only
    split
    · trivial
    · trivial
  · trivial

theorem chunkData_asides (p : Fields) : Asides (chunkData p) := by
  unfold chunkData assert
  split
  · split
    · refine .inr ⟨⟨by decide, by decide⟩, ?_⟩
      dsimp only
      split
      · trivial
      · trivial
    · trivial
  · trivial

theorem urlMark_asides (p : Fields) (ch : UInt8) : Asides (.mark .url (urlByte p ch)) := by
  refine .inr ⟨⟨by decide, by decide⟩, ?_⟩
  unfold urlByte
  dsimp only
  split
  · trivial
  · trivial

/-- No step outside the header lines sets their marks. -/
theorem dispatch_asides (ch : UInt8) (hHeader : part p.state ≠ some .header) (hPart : part p.state ≠ none) :
    Asides (dispatch p ch) := by
  cases hs : p.state
  all_goals first
    | rw [hs] at hPart
      exact absurd rfl hPart
    | rw [hs] at hHeader
      exact absurd rfl hHeader
    | simp only [dispatch, hs]
  case reqSpacesBeforeUrl =>
    unfold reqSpacesBeforeUrl
    split
    · trivial
    · exact urlMark_asides _ ch
  case resStatusStart =>
    unfold resStatusStart
    repeat' split
    all_goals first
      | trivial
      | exact .inr ⟨⟨by decide, by decide⟩, trivial⟩
  case bodyIdentityEof => exact .inr ⟨⟨by decide, by decide⟩, trivial⟩
  case bodyIdentity => exact bodyIdentity_asides p
  case chunkData => exact chunkData_asides p
  all_goals
    simp only [startReqOrRes, startReq, resOrRespH, literal, firstHttpMajor, httpMajor, firstHttpMinor, httpMinorDigit,
      resHttpMinor, resFirstStatusCode, resStatusCode, resStatus, reqMethod, urlStart, urlRest, urlByte,
      reqHttpStart, reqHttpMinor, reqLineAlmostDone, chunkSizeStart, chunkSize, chunkParameters,
      chunkSizeAlmostDone, chunkDataAlmostDone, chunkDataDone, Fields.strictCheck, assert]
    repeat' split
    all_goals trivial

/-! ### The header lines -/

theorem headersAlmostDone_lengthing (hPlacing : Placing (headersAlmostDone p ch) ch none v) (h : InHeader p v)
    (hReadable : AllReadable v) (hEnds : ch = LF → p.flags.trailing = false →
      (p.flags.chunked && p.flags.contentlength) = false → Readable v.key v.value) :
    Lengthing (headersAlmostDone p ch) ch none v := by
  have hSound : (headersAlmostDone p ch).Sound 0 none false 0 := headersAlmostDone_sound p ch 0
  unfold headersAlmostDone Fields.strictCheck at hPlacing hSound ⊢
  split
  · trivial
  case isFalse hLF =>
    rw [if_neg hLF] at hPlacing hSound
    split
    case isTrue hTrailing =>
      rw [if_pos hTrailing] at hPlacing hSound
      exact aside_lengthing hSound trivial hPlacing hReadable (.inl (h.framing hTrailing)) (fun m h => by cases h)
    case isFalse hTrailing =>
      rw [if_neg hTrailing] at hPlacing hSound
      split
      · trivial
      case isFalse hFraming =>
        rw [if_neg hFraming] at hPlacing hSound
        have hLine := hEnds (by simpa using hLF) (by simpa using hTrailing) (by simpa using hFraming)
        have hAll : AllReadable v.flush := flush_readable hReadable fun _ => hLine
        refine ⟨rfl, hAll, ?_⟩
        exact aside_lengthing hSound.2 (headersDone_asides _ ch) hPlacing.2.2 hAll (.inl rfl) (fun m h => by cases h)

/-- What has to be known of a line that is over, before the byte behind it. -/
structure Over (p : Fields) (ch : UInt8) (v : Assembly) : Prop where
  held : v.pending = false → v.key = [] ∧ v.value = []
  stated : v.value ≠ [] → Readable v.key v.value
  ends : ch = LF → (p.flags.chunked && p.flags.contentlength) = false → Readable v.key v.value
  name : token ch ≠ 0 → Readable v.key v.value

theorem headerFieldStart_lengthing (hPlacing : Placing (headerFieldStart p ch) ch none v) (h : InHeader p v)
    (hReadable : AllReadable v) (hOver : p.flags.trailing = false → Over p ch v) :
    Lengthing (headerFieldStart p ch) ch none v := by
  unfold headerFieldStart at hPlacing ⊢
  split
  · exact ⟨hReadable, fun hOpen => (hOver hOpen).stated⟩
  case isFalse hCR =>
    rw [if_neg hCR] at hPlacing
    split
    case isTrue hLF =>
      rw [if_pos hLF] at hPlacing
      refine headersAlmostDone_lengthing hPlacing ?_ hReadable fun hLF hOpen => (hOver hOpen).ends hLF
      exact h.goto ⟨rfl, rfl, rfl, rfl, rfl⟩ (fun h => by cases h) (fun h => by cases h)
    · dsimp only
      split
      · trivial
      case isFalse hToken =>
        have hAll : AllReadable v.flush := by
          apply flush_readable hReadable
          intro hFraming
          refine (hOver ?_).name hToken
          cases hTrailing : p.flags.trailing with
          | false => rfl
          | true =>
              have hSome := h.framing hTrailing
              rw [hFraming] at hSome
              cases hSome
        refine ⟨hAll, fun hOpen => ?_⟩
        obtain ⟨hKey, hValue⟩ := flush_clear (hOver hOpen).held
        have hName : lower (v.flush.key ++ [ch]) = [token ch] := by
          rw [hKey, lower_snoc hToken]
          rfl
        refine ⟨hValue, fun hNil => ?_, ?_⟩
        · exact List.cons_ne_nil _ _ (List.append_eq_nil_iff.mp hNil).2
        · show OnTrack (lower (v.flush.key ++ [ch])) _
          rw [hName]
          exact onTrack_first p (token ch)

theorem headerField_lengthing (hReadable : AllReadable v) (hState : p.state = .headerField)
    (hLine : p.flags.trailing = false → v.value = [] ∧ v.key ≠ [] ∧ OnTrack (lower v.key) p) (read : Nat) :
    Lengthing (headerField p ch read) ch (some .headerField) v := by
  unfold headerField
  dsimp only
  split
  · show Lengthing (if ch = ':'.toUInt8 then _ else _) ch (some .headerField) v
    split
    · refine ⟨hReadable, hReadable, fun hTrailing => ?_⟩
      obtain ⟨hValue, -, hTrack⟩ := hLine hTrailing
      refine ⟨hValue, fun hName => ?_⟩
      have hKey : lower v.key = hfContentLen := hName
      rw [hKey] at hTrack
      exact (hTrack (List.prefix_refl _)).1
    · trivial
  case isFalse hToken =>
    split
    case h_1 q hGo =>
      have hNext : q.state = .headerField := (fieldSwitch_state hGo).trans hState
      have hAlike := fieldSwitch_alike hGo
      refine ⟨hReadable.of_headers (extend_headers v .headerField ch), fun hTrailing => ?_⟩
      obtain ⟨hValue, hKey, hTrack⟩ := hLine (hAlike.trailing.symm.trans hTrailing)
      show AtLine q (v.extend .headerField ch)
      unfold AtLine
      rw [hNext]
      refine ⟨hValue, fun hNil => List.cons_ne_nil _ _ (List.append_eq_nil_iff.mp hNil).2, ?_⟩
      show OnTrack (lower (v.key ++ [ch])) q
      rw [lower_snoc hToken]
      exact hTrack.step (fun hNil => hKey (List.map_eq_nil_iff.mp hNil)) hGo
    all_goals trivial

/-- The first byte of a value, which for a content length is a digit. -/
theorem valueStartSwitch_length (hState : p.headerState = .contentLength) (hGo : valueStartSwitch p ch c = .go q) :
    isNum ch = true ∧ q.headerState = .contentLength ∧ q.contentLength = digitValue ch := by
  simp only [valueStartSwitch, hState] at hGo
  split at hGo
  · cases hGo
  case isFalse hNum =>
    cases hGo
    exact ⟨by simpa using hNum, rfl, rfl⟩

theorem headerValueStart_lengthing (hReadable : AllReadable v)
    (hLine : p.flags.trailing = false → lower v.key = hfContentLen →
      p.headerState = .contentLength ∧ (v.value = [] ∨ ch = SP ∨ ch = HT)) :
    Lengthing (headerValueStart p ch) ch none v := by
  unfold headerValueStart
  show Lengthing _ ch (some .headerValue) (v.start .headerValue)
  split
  case h_1 q hGo =>
    have hNext : q.state = .headerValue := valueStartSwitch_state hGo
    have hAlike := valueStartSwitch_alike hGo
    refine ⟨hReadable, fun hTrailing => ?_⟩
    show AtLine q ((v.start .headerValue).extend .headerValue ch)
    unfold AtLine
    rw [hNext]
    intro hName
    obtain ⟨hState, hFirst⟩ := hLine (hAlike.trailing.symm.trans hTrailing) hName
    obtain ⟨hNum, hKept, hLength⟩ := valueStartSwitch_length (p := { p with state := .headerValue, index := 0 }) hState hGo
    refine ⟨hKept, ?_⟩
    show Measures q.contentLength (v.value ++ [ch])
    rw [hLength]
    rcases hFirst with hNil | hBlank | hBlank
    · rw [hNil]
      exact measures_first hNum
    · rw [hBlank] at hNum
      cases hNum
    · rw [hBlank] at hNum
      cases hNum
  all_goals trivial

theorem headerAlmostDone_lengthing (hReadable : AllReadable v)
    (hLine : p.flags.trailing = false →
      (lower v.key = hfContentLen → p.headerState = .contentLength ∧ ∃ n, stoull v.value = .ok n) ∧
        (v.pending = false → v.key = [] ∧ v.value = [])) :
    Lengthing (headerAlmostDone p ch) ch none v := by
  unfold headerAlmostDone
  split
  · trivial
  · exact ⟨hReadable, hLine⟩

theorem headerValue_lengthing (hReadable : AllReadable v) (hPending : v.pending = true)
    (hState : p.state = .headerValue) {h : HeaderState}
    (hLine : p.flags.trailing = false → lower v.key = hfContentLen →
      h = .contentLength ∧ Measures p.contentLength v.value) (read : Nat) :
    Lengthing (headerValue p ch read h) ch (some .headerValue) v := by
  have hEnd : p.flags.trailing = false →
      (lower v.key = hfContentLen → h = .contentLength ∧ ∃ n, stoull v.value = .ok n) ∧
        (v.pending = false → v.key = [] ∧ v.value = []) := by
    intro hTrailing
    refine ⟨fun hName => (hLine hTrailing hName).imp id Measures.stoull, fun hNone => ?_⟩
    rw [hPending] at hNone
    cases hNone
  unfold headerValue
  split
  · exact ⟨hReadable, hReadable, hEnd⟩
  split
  · exact ⟨hReadable, headerAlmostDone_lengthing hReadable hEnd⟩
  split
  · trivial
  split
  case h_1 q h' hGo =>
    have hNext : q.state = .headerValue := valueSwitch_state hState hGo
    have hAlike : Alike p q := valueSwitch_alike hGo
    refine ⟨hReadable, fun hTrailing => ?_⟩
    show AtLine { q with headerState := h' } (v.extend .headerValue ch)
    unfold AtLine
    rw [hNext]
    intro hName
    obtain ⟨hLength, hMeasures⟩ := hLine (hAlike.trailing.symm.trans hTrailing) hName
    rw [hLength] at hGo
    exact valueSwitch_length hMeasures hGo
  all_goals trivial

theorem AtLine.discard (h : AtLine p v) (hState : p.state = .headerValueDiscardWs ∨
      p.state = .headerValueDiscardWsAlmostDone ∨ p.state = .headerValueDiscardLws ∨ p.state = .headerValueStart) :
    v.value = [] ∧ (lower v.key = hfContentLen → p.headerState = .contentLength) := by
  unfold AtLine at h
  rcases hState with hs | hs | hs | hs
  all_goals
    rw [hs] at h
    exact h

theorem AtLine.ended (h : AtLine p v) (hState : p.state = .headerAlmostDone ∨ p.state = .headerValueLws) :
    (lower v.key = hfContentLen → p.headerState = .contentLength ∧ ∃ n, stoull v.value = .ok n) ∧
      (v.pending = false → v.key = [] ∧ v.value = []) := by
  unfold AtLine at h
  rcases hState with hs | hs
  all_goals
    rw [hs] at h
    exact h

/-- The byte does not come behind a line that names a content length and gives no value, where
the codec would take this line in: it neither ends the headers nor begins another line. -/
def Spares (p : Fields) (ch : UInt8) (key value : ByteString) : Prop :=
  lower key = hfContentLen → value = [] →
    endsHeaders p ch = false ∧ (p.state = .headerValueDiscardLws → p.flags.trailing = false → token ch = 0)

instance (p : Fields) (ch : UInt8) (key value : ByteString) : Decidable (Spares p ch key value) :=
  inferInstanceAs (Decidable (_ → _ → _))

/-- A line that ends without a value. -/
theorem headerValueDiscardLws_lengthing (hState : p.state = .headerValueDiscardLws)
    (hPlacing : Placing (headerValueDiscardLws p ch) ch none v)
    (h : InHeader p v) (hMisplaced : v.misplaced = false) (hReadable : AllReadable v)
    (hLine : p.flags.trailing = false → v.value = [] ∧ (lower v.key = hfContentLen → p.headerState = .contentLength))
    (hSpares : Spares p ch v.key v.value) : Lengthing (headerValueDiscardLws p ch) ch none v := by
  unfold headerValueDiscardLws at hPlacing ⊢
  split
  · exact ⟨hReadable, hLine⟩
  case isFalse hBlank =>
    rw [if_neg hBlank] at hPlacing
    refine ⟨hReadable, ?_⟩
    apply headerFieldStart_lengthing hPlacing.2
    · have hFinish : InHeader ((finishHeader p).updateState .headerFieldStart) v :=
        h.goto { finishHeader_alike p with } (fun h => by cases h) (fun h => by cases h)
      exact (hFinish.startValue hMisplaced (.refl _) rfl (fun h => by cases h)).inHeader rfl
    · exact hReadable
    · intro hTrailing
      have hOpen : p.flags.trailing = false := (finishHeader_framing p).2.2.symm.trans hTrailing
      obtain ⟨hNil, -⟩ := hLine hOpen
      exact
        { held := fun hPending => by cases hPending
          stated := fun hSome => absurd hNil hSome
          ends := by
            intro hLF hFraming hName
            have hEnds := (hSpares hName hNil).1
            rw [endsHeaders_line (.inr hState) hLF hTrailing hFraming] at hEnds
            cases hEnds
          name := fun hToken hName => absurd ((hSpares hName hNil).2 hState hOpen) hToken }

theorem header_lengthing (hPlaced : Placed p v) (hPart : part p.state = some .header) (hLengths : Lengths p v)
    (hSpares : Spares p ch v.key v.value) :
    Lengthing (dispatch p ch) ch (startMark p.state) v := by
  have hHeader := hPlaced.inHeader hPart
  have hPlacing : Placing (dispatch p ch) ch (startMark p.state) v := header_placing hPlaced hPart
  obtain ⟨hReadable, hLine⟩ := hLengths
  cases hs : p.state
  all_goals first
    | rw [hs] at hPart
      exact absurd hPart (by decide)
    | simp only [dispatch, hs, startMark] at hPlacing ⊢
  case headerFieldStart =>
    refine headerFieldStart_lengthing hPlacing hHeader hReadable fun hOpen => ?_
    have hAt := hLine hOpen
    unfold AtLine at hAt
    rw [hs] at hAt
    exact ⟨hAt.2, fun _ => hAt.1, fun _ _ => hAt.1, fun _ => hAt.1⟩
  case headersAlmostDone =>
    refine headersAlmostDone_lengthing hPlacing hHeader hReadable fun hLF hOpen hFraming => ?_
    have hAt := hLine hOpen
    unfold AtLine at hAt
    rw [hs] at hAt
    intro hName
    by_cases hNil : v.value = []
    · have hEnds := (hSpares hName hNil).1
      rw [endsHeaders_start (.inl hs) hLF hOpen hFraming] at hEnds
      cases hEnds
    · exact hAt hNil hName
  case headerField =>
    refine headerField_lengthing hReadable hs (fun hOpen => ?_) 0
    have hAt := hLine hOpen
    unfold AtLine at hAt
    rw [hs] at hAt
    exact hAt
  case headerValue =>
    refine headerValue_lengthing hReadable (hHeader.value hs) hs (fun hOpen => ?_) 0
    have hAt := hLine hOpen
    unfold AtLine at hAt
    rw [hs] at hAt
    exact hAt
  case headerValueStart =>
    apply headerValueStart_lengthing hReadable
    intro hOpen hName
    obtain ⟨hNil, hState⟩ := (hLine hOpen).discard (.inr (.inr (.inr hs)))
    exact ⟨hState hName, .inl hNil⟩
  case headerAlmostDone =>
    exact headerAlmostDone_lengthing hReadable fun hOpen => (hLine hOpen).ended (.inl hs)
  case headerValueDiscardWs =>
    have hDiscard : p.flags.trailing = false →
        v.value = [] ∧ (lower v.key = hfContentLen → p.headerState = .contentLength) :=
      fun hOpen => (hLine hOpen).discard (.inl hs)
    unfold headerValueDiscardWs
    split
    · exact ⟨hReadable, hLine⟩
    split
    · exact ⟨hReadable, hDiscard⟩
    split
    · exact ⟨hReadable, hDiscard⟩
    · apply headerValueStart_lengthing hReadable
      intro hOpen hName
      exact ⟨(hDiscard hOpen).2 hName, .inl (hDiscard hOpen).1⟩
  case headerValueDiscardWsAlmostDone =>
    unfold literal Fields.strictCheck
    split
    · trivial
    · exact ⟨hReadable, fun hOpen => (hLine hOpen).discard (.inr (.inl hs))⟩
  case headerValueDiscardLws =>
    exact headerValueDiscardLws_lengthing hs hPlacing hHeader hPlaced.unmisplaced hReadable
      (fun hOpen => (hLine hOpen).discard (.inr (.inr (.inl hs)))) hSpares
  case headerValueLws =>
    unfold headerValueLws at hPlacing ⊢
    split
    case isTrue hBlank =>
      apply headerValueStart_lengthing hReadable
      intro hOpen hName
      exact ⟨(((hLine hOpen).ended (.inr hs)).1 hName).1, .inr hBlank⟩
    case isFalse hBlank =>
      rw [if_neg hBlank] at hPlacing
      apply headerFieldStart_lengthing hPlacing
      · exact hHeader.goto { finishHeader_alike p with } (fun h => by cases h) (fun h => by cases h)
      · exact hReadable
      · intro hTrailing
        have hOpen : p.flags.trailing = false := (finishHeader_framing p).2.2.symm.trans hTrailing
        obtain ⟨hName, hPending⟩ := (hLine hOpen).ended (.inr hs)
        have hReads : Readable v.key v.value := fun hKey => (hName hKey).2
        exact ⟨hPending, fun _ => hReads, fun _ _ => hReads, fun _ => hReads⟩

/-! ### Runs -/

theorem apart_of_part (hPlaced : Placed p v) (hPart : part p.state ≠ some .header) : Apart v := by
  have hMatch := hPlaced.2
  split at hMatch
  case h_1 => exact .inr ⟨by rw [hMatch], by rw [hMatch]⟩
  case h_2 => exact .inr ⟨hMatch.unlined.key, hMatch.unlined.value⟩
  case h_3 hHeader => exact absurd hHeader hPart
  case h_4 => exact .inl hMatch.framing
  case h_5 => exact hMatch.elim

theorem part_ne_none (hPlaced : Placed p v) : part p.state ≠ none := by
  intro hNone
  have hMatch := hPlaced.2
  rw [hNone] at hMatch
  exact hMatch

theorem startMark_of_header {s : State} (hPart : part s = some .header) (hAdmits : s.admits cur) :
    cur = startMark s := by
  cases s
  all_goals first
    | exact of_decide_eq_true hAdmits
    | exact absurd hPart (by decide)

theorem mark_of_outside {s : State} {m : Mark} (hPart : part s ≠ some .header) (hAdmits : s.admits (some m)) :
    m ≠ .headerField ∧ m ≠ .headerValue := by
  cases s
  all_goals first
    | exact absurd rfl hPart
    | cases m
      all_goals first
        | exact ⟨by decide, by decide⟩
        | exact absurd hAdmits (by decide)

/-- While a mark is set, no line is over. -/
theorem spares_marked {m : Mark} (hAdmits : p.state.admits (some m)) (key value : ByteString) :
    Spares p ch key value := by
  have hOther : p.state ≠ .headersAlmostDone ∧ p.state ≠ .headerFieldStart ∧ p.state ≠ .headerValueLws ∧
      p.state ≠ .headerValueDiscardLws := by
    refine ⟨fun hs => ?_, fun hs => ?_, fun hs => ?_, fun hs => ?_⟩
    all_goals
      rw [hs] at hAdmits
      cases m
      all_goals cases hAdmits
  exact fun _ _ => ⟨by simp [endsHeaders, hOther], fun hs => absurd hs hOther.2.2.2⟩

/-- The states of the header lines, and those outside. -/
theorem dispatch_lengthing {bound n : Nat} (hPlaced : Placed p v) (hLengths : Lengths p v) (hAdmits : p.state.admits cur)
    (hSound : (dispatch p ch).Sound bound cur false n)
    (hSpares : Spares p ch v.key v.value) :
    Lengthing (dispatch p ch) ch cur v := by
  by_cases hPart : part p.state = some .header
  · rw [startMark_of_header hPart hAdmits]
    exact header_lengthing hPlaced hPart hLengths hSpares
  · refine aside_lengthing hSound (dispatch_asides ch hPart (part_ne_none hPlaced))
      (dispatch_placing hPlaced hAdmits) hLengths.headers (apart_of_part hPlaced hPart) ?_
    intro m hMark
    exact mark_of_outside hPart (hMark ▸ hAdmits)

theorem step_lengthing {l : Locals} (hl : l.Regular) (hPlaced : Placed l.fields v)
    (hLengths : Lengths (l.loop.settle l.fields) v)
    (hSpares : Spares l.fields ch v.key v.value) :
    Lengthing (step l.fields l.loop ch) ch (l.mark.map Prod.fst) v := by
  have hSound := step_sound hl ch
  have hLoop := hl.loop
  cases hCase : l.loop with
  | outer =>
      rw [hCase] at hLengths hSound
      rw [step] at hSound ⊢
      split
      case isTrue hParsing =>
        rw [if_pos hParsing] at hSound
        exact dispatch_lengthing hPlaced hLengths hl.mark hSound.2.2 hSpares
      case isFalse hParsing =>
        rw [if_neg hParsing] at hSound
        exact dispatch_lengthing hPlaced hLengths hl.mark hSound hSpares
  | field read =>
      rw [hCase] at hLoop hLengths
      have hCur := startMark_of_header (by rw [hLoop.1]; rfl) hl.mark
      rw [hCur, hLoop.1]
      refine headerField_lengthing hLengths.headers hLoop.1 (fun hOpen => ?_) read
      have hAt := hLengths.line hOpen
      unfold AtLine at hAt
      rw [show (Loop.settle l.fields (.field read)).state = .headerField from hLoop.1] at hAt
      exact hAt
  | value read h skip =>
      rw [hCase] at hLoop hLengths
      obtain ⟨hState, -, hSkip⟩ := hLoop
      have hCur := startMark_of_header (by rw [hState]; rfl) hl.mark
      have hAt : l.fields.flags.trailing = false → lower v.key = hfContentLen →
          h = .contentLength ∧ Measures l.fields.contentLength v.value := by
        intro hOpen
        have hLine := hLengths.line hOpen
        unfold AtLine at hLine
        rw [show (Loop.settle l.fields (.value read h skip)).state = .headerValue from hState] at hLine
        exact hLine
      have hPending := (hPlaced.inHeader (by rw [hState]; rfl)).value hState
      rw [hCur, hState, step]
      cases skip with
      | none => exact headerValue_lengthing hLengths.headers hPending hState hAt read
      | some k =>
          rw [headerValueLoop]
          split
          · exact headerValue_lengthing hLengths.headers hPending hState hAt read
          · refine ⟨hLengths.headers.of_headers (extend_headers v .headerValue ch), fun hOpen => ?_⟩
            show AtLine { l.fields with headerState := h } (v.extend .headerValue ch)
            unfold AtLine
            rw [hState]
            intro hName
            have hLength := (hAt hOpen hName).1
            rw [(hSkip k rfl).1] at hLength
            cases hLength

/-- A mark that is set again for the next buffer. -/
theorem Lengths.restart (h : Lengths p v) (hPlaced : Placed p v) :
    Lengths p ((startMark p.state).elim v fun m => v.start m) := by
  cases hs : p.state
  all_goals simp only [startMark, Option.elim_none, Option.elim_some]
  all_goals first
    | exact h
    | skip
  case headerField =>
    have hPending := (hPlaced.inHeader (by rw [hs]; rfl)).field hs
    have hSame : v.flush = v := Impl.flush_idle hPending
    have hHeaders : v.flush.headers = v.headers := congrArg (fun a : Assembly => a.headers) hSame
    refine ⟨h.headers.of_headers hHeaders, fun hOpen => ?_⟩
    have hAt := h.line hOpen
    unfold AtLine at hAt ⊢
    rw [hs] at hAt ⊢
    show v.flush.value = [] ∧ v.flush.key ≠ [] ∧ OnTrack (lower v.flush.key) p
    rw [hSame]
    exact hAt
  case headerValue =>
    refine ⟨h.headers, fun hOpen => ?_⟩
    have hAt := h.line hOpen
    unfold AtLine at hAt ⊢
    rw [hs] at hAt ⊢
    exact hAt
  all_goals
    refine ⟨h.headers, fun hOpen => ?_⟩
    unfold AtLine
    rw [hs]
    trivial

theorem lengths_fresh (done : List Spelled) (misplaced : Bool) :
    Lengths fresh.toFields { done := done, misplaced := misplaced } :=
  ⟨fun line hMem => (by cases hMem), fun _ => trivial⟩

/-- The invariant of a decoder that hands no value to `std::stoull` which it does not read. -/
theorem length_invariant :
    CodecInvariant cb assembler (fun v => v.misplaced = false ∧ AllReadable v) Tracks (fun _ => True)
      (fun f => ∀ e, f ≠ .contentLength e) (fun p loop _ v => Placed p v ∧ Lengths (loop.settle p) v)
      (fun l ch d => Spares l.fields ch d.key d.value) where
  listens :=
    { ok := by
        intro a d c e hTracks hGood hApply
        have hEnds : Impl.Ends cb a d c (d.apply cb c) := Impl.apply_ends hTracks c
        rw [hApply] at hEnds
        exact Impl.Accepts.tracks hTracks hEnds
      failed := fun _ _ _ => trivial
      fault := by
        intro a d c f hTracks hGood hApply e hFault
        have hEnds : Impl.Ends cb a d c (d.apply cb c) := Impl.apply_ends hTracks c
        rw [hApply] at hEnds
        have hExplains := hEnds.resolve_left (by rw [hGood.1]; exact Bool.false_ne_true)
        rw [hFault] at hExplains
        obtain ⟨line, hMem, hName, hValue⟩ := hExplains
        obtain ⟨n, hReads⟩ := hGood.2 line hMem hName
        rw [hReads] at hValue
        cases hValue
      always := fun _ => trivial }
  step := by
    intro l ch a d hl hTracks hInv hSpares
    refine Prog.wp_and (step_placing hl hInv.1) (step_lengthing hl hInv.1 hInv.2 ?_)
    cases hMark : l.mark with
    | none =>
        show Spares l.fields ch a.key a.value
        rw [← hTracks.key, ← hTracks.value]
        exact hSpares
    | some m =>
        have hAdmits := hl.mark
        rw [hMark] at hAdmits
        exact spares_marked hAdmits _ _
  good h := ⟨h.1.unmisplaced, h.2.headers⟩
  cut _ h := ⟨placed_cut h.1, h.2.restart (h.1.settle _)⟩
  error _ _ := ⟨{}, Impl.reset_tracks [] false, placed_fresh [], lengths_fresh [] false⟩

/-- If no step takes in a line that names a content length and gives no value, `std::stoull` never
throws in a run. -/
theorem content_length_safe (hFatal : cb.Fatal) (object : Message) (user : υ) (pieces : List ByteString)
    (hSpares : ∀ s ∈ (HttpCodec.init object user).decodeAllStates cb pieces,
      Spares s.1.1.fields s.1.2 s.2.key s.2.value) :
    ¬ ∃ e : ConversionError, (HttpCodec.init object user).decodeAll cb pieces = .error (.contentLength e) := by
  rintro ⟨e, hFault⟩
  have hStart : Conducted assembler Tracks (fun p loop _ v => Placed p v ∧ Lengths (loop.settle p) v)
      (HttpCodec.init object user) :=
    ⟨⟨rfl, rfl⟩, enter_regular_fresh, {}, Impl.reset_tracks (d := Impl.init object user) [] false, placed_fresh [],
      lengths_fresh [] false⟩
  have hRun := decodeAll_keeps_of_states length_invariant hFatal hStart hSpares
  rw [hFault] at hRun
  cases hRun with
  | inl hOther => exact hOther e rfl
  | inr hAssertion => cases hAssertion

/-- A request whose content length is empty. -/
theorem content_length_fault :
    (HttpCodec.init (.request .fresh) ()).decodeAll handing
      [ofString "GET / HTTP/1.1\r\nContent-Length:\r\n\r\n"] = .error (.contentLength .invalidArgument) := by
  apply eq_of_faultOf
  decide +kernel

theorem content_length_safe_post :
    ¬ ∃ e : ConversionError, (HttpCodec.init (.request .fresh) ()).decodeAll handing
      [ofString "POST / HTTP/1.1\r\nx:\r\nContent-Len", ofString "gth:\r\n 2\r\n\r\nab"] = .error (.contentLength e) :=
  content_length_safe (fun _ _ => rfl) _ _ _ (by decide +kernel)

end Doormat.Http
