import Doormat.Http.LineRun
import Doormat.Http.Lines

/-! What a header line leaves of the fields that frame a message. Five names are matched
while they are read; of these one asks for an upgrade only, and the line of any other name
leaves no trace. -/
namespace Doormat.Http

open Bytes Doormat.Parser

/-! ### Names -/

def hfProxyConnection : ByteString := ofString "proxy-connection"

def hfUpgrade : ByteString := ofString "upgrade"

/-- The names that are matched, with the state in which they are. -/
def matchings : List (HeaderState × ByteString) :=
  [(.matchingConnection, hfConnection), (.matchingProxyConnection, hfProxyConnection),
    (.matchingContentLength, hfContentLen), (.matchingTransferEncoding, hfTransferEncoding),
    (.matchingUpgrade, hfUpgrade)]

/-- The names with the state in which they have been matched. -/
def matched : List (HeaderState × ByteString) :=
  [(.connection, hfConnection), (.connection, hfProxyConnection), (.contentLength, hfContentLen),
    (.transferEncoding, hfTransferEncoding), (.upgrade, hfUpgrade)]

/-- The letters that three of the names share. -/
def letters : List (HeaderState × ByteString) :=
  [(.C, ofString "c"), (.CO, ofString "co"), (.CON, ofString "con")]

/-- The parser after the characters `read` of a name: it is matching only what they spell. -/
inductive Spelt (read : ByteString) (p : Fields) : Prop
  | general (hState : p.headerState = .general)
  | shared {h : HeaderState} (hState : p.headerState = h) (hIndex : p.index + 1 = read.length)
      (hRead : (h, read) ∈ letters)
  | matching {h : HeaderState} {w : ByteString} (hState : p.headerState = h)
      (hIndex : p.index + 1 = read.length) (hWord : (h, w) ∈ matchings) (hPrefix : read <+: w)
  | whole {h : HeaderState} (hState : p.headerState = h) (hRead : (h, read) ∈ matched)

/-- The parser but for what a header line needs while it is read, and for the flags that
ask for an upgrade. -/
def kept (p : Fields) : Fields :=
  { p with
    state := .headerFieldStart, headerState := .general, index := 0
    flags := { p.flags with upgrade := false, connectionUpgrade := false } }

variable {p p' q : Fields} {read name value rest : ByteString} {ch c : UInt8}

/-- A step of matching a name goes on only along the name. -/
theorem matchNext_spelt {constant : ByteString} {d h : HeaderState} (hIndex : p.index + 1 = read.length)
    (hPrefix : read <+: constant) (c : UInt8) :
    ∃ h', matchNext p c constant d .general h = ({ p with index := p.index + 1 }, h') ∧
      (h' = .general ∨ h' = d ∧ read ++ [c] = constant ∨ h' = h ∧ read ++ [c] <+: constant) := by
  by_cases hc : constant[read.length]? = some c
  · have hOn := (prefix_snoc hPrefix c).mpr hc
    by_cases hLast : read.length + 1 = constant.length
    · refine ⟨d, matchNext_done hIndex hc hLast, .inr (.inl ⟨rfl, hOn.eq_of_length ?_⟩)⟩
      rw [List.length_append, ← hLast]
      rfl
    · exact ⟨h, matchNext_more hIndex hc hLast, .inr (.inr ⟨rfl, hOn⟩)⟩
  · exact ⟨.general, matchNext_miss hIndex hc, .inl rfl⟩

theorem spelt_first (p : Fields) (c : UInt8) :
    Spelt [c] { p with state := .headerField, index := 0, headerState := firstHeaderState c } := by
  unfold firstHeaderState
  by_cases hC : c = 'c'.toUInt8
  · rw [if_pos hC, hC]
    exact .shared (h := .C) rfl rfl (by decide)
  by_cases hP : c = 'p'.toUInt8
  · rw [if_neg hC, if_pos hP, hP]
    exact .matching (h := .matchingProxyConnection) (w := hfProxyConnection) rfl rfl (by decide) (by decide)
  by_cases hT : c = 't'.toUInt8
  · rw [if_neg hC, if_neg hP, if_pos hT, hT]
    exact .matching (h := .matchingTransferEncoding) (w := hfTransferEncoding) rfl rfl (by decide) (by decide)
  by_cases hU : c = 'u'.toUInt8
  · rw [if_neg hC, if_neg hP, if_neg hT, if_pos hU, hU]
    exact .matching (h := .matchingUpgrade) (w := hfUpgrade) rfl rfl (by decide) (by decide)
  · rw [if_neg hC, if_neg hP, if_neg hT, if_neg hU]
    exact .general rfl

/-- What the switch does while it matches a name, short of a whole `content-length`. -/
theorem fieldSwitch_matches {constant : ByteString} (hConstant : (p.headerState, constant) ∈ matchings)
    (ch c : UInt8) :
    ∃ done, (done, constant) ∈ matched ∧ ∀ h', h' ≠ .contentLength →
      matchNext p c constant done .general p.headerState = ({ p with index := p.index + 1 }, h') →
        fieldSwitch p ch c = .go { p with index := p.index + 1, headerState := h' } := by
  simp only [matchings, List.mem_cons, Prod.mk.injEq, List.not_mem_nil, or_false] at hConstant
  rcases hConstant with ⟨hState, rfl⟩ | ⟨hState, rfl⟩ | ⟨hState, rfl⟩ | ⟨hState, rfl⟩ | ⟨hState, rfl⟩
  · refine ⟨.connection, by decide, fun h' _ hMatch => ?_⟩
    simp only [fieldSwitch, hState] at hMatch ⊢
    rw [show ofString "connection" = hfConnection from rfl, hMatch]
  · refine ⟨.connection, by decide, fun h' _ hMatch => ?_⟩
    simp only [fieldSwitch, hState] at hMatch ⊢
    rw [show ofString "proxy-connection" = hfProxyConnection from rfl, hMatch]
  · refine ⟨.contentLength, by decide, fun h' hNot hMatch => ?_⟩
    simp only [fieldSwitch, hState] at hMatch ⊢
    rw [show ofString "content-length" = hfContentLen from rfl, hMatch]
    simp only [hNot, if_false]
  · refine ⟨.transferEncoding, by decide, fun h' _ hMatch => ?_⟩
    simp only [fieldSwitch, hState] at hMatch ⊢
    rw [show ofString "transfer-encoding" = hfTransferEncoding from rfl, hMatch]
  · refine ⟨.upgrade, by decide, fun h' _ hMatch => ?_⟩
    simp only [fieldSwitch, hState] at hMatch ⊢
    rw [show ofString "upgrade" = hfUpgrade from rfl, hMatch]

theorem eq_hfContentLen_of_matched {constant : ByteString} (h : (HeaderState.contentLength, constant) ∈ matched) :
    constant = hfContentLen := by
  simpa [matched] using h

theorem ne_contentLength_of_matchings {h : HeaderState} {constant : ByteString} (hMem : (h, constant) ∈ matchings) :
    h ≠ .contentLength := by
  rintro rfl
  simp [matchings] at hMem

/-- A further character of a name, unless it is the last of `content-length`. -/
theorem Spelt.step (h : Spelt read p) (hSpace : ch ≠ SP) (c : UInt8) (hNot : read ++ [c] ≠ hfContentLen) :
    ∃ p', fieldSwitch p ch c = .go p' ∧ Spelt (read ++ [c]) p' ∧ kept p' = kept p := by
  cases h with
  | general hState => exact ⟨p, by simp [fieldSwitch, hState], .general hState, rfl⟩
  | shared hState hIndex hRead =>
      have hLong : p.index + 1 + 1 = (read ++ [c]).length := by simp [hIndex]
      simp only [letters, List.mem_cons, Prod.mk.injEq, List.not_mem_nil, or_false] at hRead
      rcases hRead with ⟨rfl, rfl⟩ | ⟨rfl, rfl⟩ | ⟨rfl, rfl⟩
      · have hGoes : fieldSwitch p ch c = .go { p with
            index := p.index + 1, headerState := if c = 'o'.toUInt8 then .CO else .general } := by
          simp [fieldSwitch, hState]
        refine ⟨_, hGoes, ?_, rfl⟩
        by_cases hc : c = 'o'.toUInt8
        · exact .shared (if_pos hc) hLong (by rw [hc]; decide)
        · exact .general (if_neg hc)
      · have hGoes : fieldSwitch p ch c = .go { p with
            index := p.index + 1, headerState := if c = 'n'.toUInt8 then .CON else .general } := by
          simp [fieldSwitch, hState]
        refine ⟨_, hGoes, ?_, rfl⟩
        by_cases hc : c = 'n'.toUInt8
        · exact .shared (if_pos hc) hLong (by rw [hc]; decide)
        · exact .general (if_neg hc)
      · have hGoes : fieldSwitch p ch c = .go { p with
            index := p.index + 1,
            headerState := if c = 'n'.toUInt8 then .matchingConnection
              else if c = 't'.toUInt8 then .matchingContentLength else .general } := by
          simp [fieldSwitch, hState]
        refine ⟨_, hGoes, ?_, rfl⟩
        by_cases hn : c = 'n'.toUInt8
        · exact .matching (w := hfConnection) (if_pos hn) hLong (by decide) (by rw [hn]; decide)
        by_cases ht : c = 't'.toUInt8
        · exact .matching (w := hfContentLen) ((if_neg hn).trans (if_pos ht)) hLong (by decide)
            (by rw [ht]; decide)
        · exact .general ((if_neg hn).trans (if_neg ht))
  | matching hState hIndex hConstant hPrefix =>
      subst hState
      obtain ⟨done, hDone, hGoes⟩ := fieldSwitch_matches hConstant ch c
      obtain ⟨h', hMatch, hOutcome⟩ := matchNext_spelt (d := done) (h := p.headerState) hIndex hPrefix c
      have hOther : h' ≠ .contentLength := by
        rintro rfl
        rcases hOutcome with hNone | ⟨rfl, hRead⟩ | ⟨hSame, -⟩
        · cases hNone
        · exact hNot (hRead.trans (eq_hfContentLen_of_matched hDone))
        · exact ne_contentLength_of_matchings hConstant hSame.symm
      refine ⟨_, hGoes h' hOther hMatch, ?_, rfl⟩
      rcases hOutcome with rfl | ⟨rfl, rfl⟩ | ⟨rfl, hOn⟩
      · exact .general rfl
      · exact .whole rfl hDone
      · exact .matching rfl (by simp [hIndex]) hConstant hOn
  | whole hState hRead =>
      refine ⟨{ p with headerState := .general }, ?_, .general rfl, rfl⟩
      subst hState
      simp only [matched, List.mem_cons, Prod.mk.injEq, List.not_mem_nil, or_false] at hRead
      rcases hRead with ⟨hState, -⟩ | ⟨hState, -⟩ | ⟨hState, -⟩ | ⟨hState, -⟩ | ⟨hState, -⟩
      all_goals simp [fieldSwitch, hState, hSpace]

/-- A name that starts otherwise than `content-length` is read to its end. -/
theorem Spelt.run (h : Spelt read p) (hTokens : ∀ c ∈ rest, token c ≠ 0)
    (hNot : ¬ hfContentLen <+: read ++ lower rest) :
    ∃ p', nameRun p rest = some p' ∧ Spelt (read ++ lower rest) p' ∧ kept p' = kept p := by
  induction rest generalizing read p with
  | nil =>
      refine ⟨p, rfl, ?_, rfl⟩
      rw [lower_nil, List.append_nil]
      exact h
  | cons ch rest ih =>
      have hToken := hTokens ch List.mem_cons_self
      have hSplit : read ++ lower (ch :: rest) = (read ++ [token ch]) ++ lower rest := by
        rw [token_eq_toLower hToken]
        simp [lower]
      rw [hSplit] at hNot ⊢
      have hShort : read ++ [token ch] ≠ hfContentLen := fun hSame =>
        hNot (hSame ▸ List.prefix_append _ _)
      obtain ⟨q, hGoes, hSpelt, hKept⟩ := h.step (ne_lineEnd_of_token hToken).2.2 (token ch) hShort
      obtain ⟨p', hRun, hSpelt', hKept'⟩ := ih hSpelt (fun c hc => hTokens c (List.mem_cons_of_mem ch hc)) hNot
      refine ⟨p', ?_, hSpelt', hKept'.trans hKept⟩
      rw [nameRun, hGoes]
      exact hRun

theorem wholeName_spelt (hLine : Line name value) (hNot : ¬ hfContentLen <+: lower name) :
    ∃ p', wholeName p name = some p' ∧ Spelt (lower name) p' ∧ kept p' = kept p := by
  cases hName : name with
  | nil => exact absurd hName hLine.named
  | cons ch rest =>
      have hTokens : ∀ c ∈ ch :: rest, token c ≠ 0 := hName ▸ hLine.token
      have hSplit : lower (ch :: rest) = [token ch] ++ lower rest := by
        rw [token_eq_toLower (hTokens ch List.mem_cons_self)]
        rfl
      rw [hName, hSplit] at hNot
      rw [hSplit]
      exact (spelt_first p (token ch)).run (fun c hc => hTokens c (List.mem_cons_of_mem ch hc)) hNot

/-! ### Lines that leave no trace -/

/-- A name, in lower case, whose value the parser does not look at, but for an upgrade. -/
structure Plain (name : ByteString) : Prop where
  length : ¬ hfContentLen <+: name
  connection : name ≠ hfConnection
  proxy : name ≠ hfProxyConnection
  coding : name ≠ hfTransferEncoding

instance (name : ByteString) : Decidable (Plain name) :=
  decidable_of_iff
    (¬ hfContentLen <+: name ∧ name ≠ hfConnection ∧ name ≠ hfProxyConnection ∧ name ≠ hfTransferEncoding)
    ⟨fun h => ⟨h.1, h.2.1, h.2.2.1, h.2.2.2⟩, fun h => ⟨h.length, h.connection, h.proxy, h.coding⟩⟩

/-- The states in which nothing has been found. -/
def quiet : HeaderState → Bool
  | .general | .C | .CO | .CON | .matchingConnection | .matchingProxyConnection | .matchingContentLength
  | .matchingTransferEncoding | .matchingUpgrade | .upgrade => true
  | _ => false

theorem Spelt.quiet (h : Spelt name p) (hPlain : Plain name) : quiet p.headerState = true := by
  cases h with
  | general hState =>
      rw [hState]
      rfl
  | shared hState hIndex hRead =>
      rw [hState]
      simp only [letters, List.mem_cons, Prod.mk.injEq, List.not_mem_nil, or_false] at hRead
      rcases hRead with ⟨rfl, -⟩ | ⟨rfl, -⟩ | ⟨rfl, -⟩
      all_goals rfl
  | matching hState hIndex hWord hPrefix =>
      rw [hState]
      simp only [matchings, List.mem_cons, Prod.mk.injEq, List.not_mem_nil, or_false] at hWord
      rcases hWord with ⟨rfl, -⟩ | ⟨rfl, -⟩ | ⟨rfl, -⟩ | ⟨rfl, -⟩ | ⟨rfl, -⟩
      all_goals rfl
  | whole hState hRead =>
      rw [hState]
      simp only [matched, List.mem_cons, Prod.mk.injEq, List.not_mem_nil, or_false] at hRead
      rcases hRead with ⟨-, hName⟩ | ⟨-, hName⟩ | ⟨-, hName⟩ | ⟨-, hName⟩ | ⟨rfl, -⟩
      · exact absurd hName hPlain.connection
      · exact absurd hName hPlain.proxy
      · exact absurd (hName ▸ List.prefix_refl _) hPlain.length
      · exact absurd hName hPlain.coding
      · rfl

theorem valueStartSwitch_quiet (hQuiet : quiet p.headerState = true) (ch c : UInt8) :
    ∃ p', valueStartSwitch p ch c = .go p' ∧ p'.headerState = .general ∧ kept p' = kept p := by
  unfold valueStartSwitch
  split
  case h_1 => exact ⟨_, rfl, rfl, rfl⟩
  case h_6 => exact ⟨_, rfl, rfl, rfl⟩
  all_goals simp_all [Http.quiet]

theorem valueRun_general (p : Fields) (value : ByteString) : valueRun p .general value = some (p, .general) := by
  induction value with
  | nil => rfl
  | cons ch rest ih => exact ih

theorem finishHeader_quiet (hQuiet : quiet p.headerState = true) : finishHeader p = p := by
  unfold finishHeader
  split
  case h_5 => rfl
  all_goals simp_all [Http.quiet]

theorem wholeValue_quiet (hQuiet : quiet p.headerState = true) (value : ByteString) :
    ∃ p', wholeValue p value = some p' ∧ finishHeader p' = p' ∧ kept p' = kept p := by
  cases value with
  | nil => exact ⟨p, rfl, finishHeader_quiet hQuiet, rfl⟩
  | cons ch rest =>
      obtain ⟨q, hGoes, hState, hKept⟩ :=
        valueStartSwitch_quiet (p := { p with state := .headerValue, index := 0 }) hQuiet ch (LOWER ch)
      refine ⟨{ q with headerState := .general }, ?_, finishHeader_quiet rfl, hKept⟩
      rw [wholeValue, hGoes]
      simp only [hState, valueRun_general]
      rfl

theorem lineRun_plain {line : ByteString × ByteString} (hLine : Line line.1 line.2) (hPlain : Plain (lower line.1))
    (p : Fields) : ∃ p', lineRun p line = some p' ∧ kept p' = kept p := by
  obtain ⟨q, hName, hSpelt, hKept⟩ := wholeName_spelt (p := p) hLine hPlain.length
  obtain ⟨r, hValue, hFinish, hKept'⟩ := wholeValue_quiet (hSpelt.quiet hPlain) line.2
  refine ⟨r.updateState .headerFieldStart, ?_, hKept'.trans hKept⟩
  rw [lineRun, hName, Option.bind_some, hValue, Option.map_some, hFinish]

/-! ### Lines that frame the message -/

/-- A value that is spelled as it is matched. -/
theorem valueRun_matching {h d o : HeaderState} {w : ByteString}
    (hSwitch : ∀ p ch, valueSwitch p h ch (LOWER ch) = .go (matchNext p (LOWER ch) w d o h)) (front : ByteString)
    (hIndex : p.index + 1 = front.length) (hWhole : front ++ rest.map LOWER = w) (hRest : rest ≠ []) :
    ∃ k, valueRun p h rest = some ({ p with index := k }, d) := by
  induction rest generalizing p front with
  | nil => exact absurd rfl hRest
  | cons ch rest ih =>
      have hc : w[front.length]? = some (LOWER ch) := by simp [← hWhole]
      cases rest with
      | nil =>
          have hLast : front.length + 1 = w.length := by simp [← hWhole]
          refine ⟨p.index + 1, ?_⟩
          rw [valueRun, hSwitch, matchNext_done hIndex hc hLast]
          rfl
      | cons next rest =>
          have hMore : ¬ front.length + 1 = w.length := by simp [← hWhole]
          rw [valueRun, hSwitch, matchNext_more hIndex hc hMore]
          exact ih (p := { p with index := p.index + 1 }) (front ++ [LOWER ch]) (by simp [hIndex])
            (by rw [← hWhole]; simp) (List.cons_ne_nil _ _)

theorem wholeValue_matching {h d o : HeaderState} {w : ByteString}
    (hStart : ∀ ch, some (LOWER ch) = w.head? →
      valueStartSwitch { p with state := .headerValue, index := 0 } ch (LOWER ch) =
        .go { p with state := .headerValue, index := 0, headerState := h })
    (hSwitch : ∀ p ch, valueSwitch p h ch (LOWER ch) = .go (matchNext p (LOWER ch) w d o h))
    (hWhole : value.map LOWER = w) (hLong : 1 < w.length) :
    ∃ k, wholeValue p value = some { p with state := .headerValue, index := k, headerState := d } := by
  cases value with
  | nil =>
      rw [← hWhole] at hLong
      cases hLong
  | cons ch rest =>
      have hRest : rest ≠ [] := by
        rintro rfl
        simp [← hWhole] at hLong
      obtain ⟨k, hRun⟩ := valueRun_matching (p := { p with state := .headerValue, index := 0, headerState := h })
        hSwitch [LOWER ch] rfl hWhole hRest
      refine ⟨k, ?_⟩
      rw [wholeValue, hStart ch (by rw [← hWhole]; rfl)]
      simp only [hRun]
      rfl

theorem LOWER_eq_of_lower (h : toLower ch = c) (hLetter : 'a'.toUInt8 ≤ c ∧ c ≤ 'z'.toUInt8) : LOWER ch = c := by
  subst h
  revert hLetter
  exact forall_byte (P := fun ch => 'a'.toUInt8 ≤ toLower ch ∧ toLower ch ≤ 'z'.toUInt8 → LOWER ch = toLower ch)
    (by decide +kernel) ch

/-- Letters are lower-cased in the same way everywhere. -/
theorem map_LOWER_of_lower {w : ByteString} (h : lower value = w)
    (hLetters : ∀ c ∈ w, 'a'.toUInt8 ≤ c ∧ c ≤ 'z'.toUInt8) : value.map LOWER = w := by
  rw [← h, lower]
  apply List.map_congr_left
  intro ch hch
  apply LOWER_eq_of_lower rfl (hLetters _ ?_)
  rw [← h]
  exact List.mem_map_of_mem hch

/-- The whole of a coding that is `chunked`, in whatever case. -/
theorem wholeValue_chunked (hState : p.headerState = .transferEncoding) (hValue : lower value = ofString "chunked") :
    ∃ k, wholeValue p value =
      some { p with state := .headerValue, index := k, headerState := .transferEncodingChunked } := by
  refine wholeValue_matching (h := .matchingTransferEncodingChunked) (o := .general) (w := ofString "chunked")
    (fun ch hFirst => ?_) (fun _ _ => rfl) (map_LOWER_of_lower hValue (by decide +kernel)) (by decide)
  have hc : LOWER ch = 'c'.toUInt8 := Option.some.inj hFirst
  simp [valueStartSwitch, hState, hc]

theorem wholeValue_keepAlive (hState : p.headerState = .connection) :
    ∃ k, wholeValue p hvKeepalive =
      some { p with state := .headerValue, index := k, headerState := .connectionKeepAlive } := by
  refine wholeValue_matching (h := .matchingConnectionKeepAlive) (o := .matchingConnectionToken)
    (w := ofString "keep-alive") (fun ch hFirst => ?_) (fun _ _ => rfl) (by decide) (by decide)
  have hk : LOWER ch = 'k'.toUInt8 := Option.some.inj hFirst
  simp [valueStartSwitch, hState, hk]

theorem wholeValue_close (hState : p.headerState = .connection) :
    ∃ k, wholeValue p hvConnectionClose =
      some { p with state := .headerValue, index := k, headerState := .connectionClose } := by
  refine wholeValue_matching (h := .matchingConnectionClose) (o := .matchingConnectionToken)
    (w := ofString "close") (fun ch hFirst => ?_) (fun _ _ => rfl) (by decide) (by decide)
  have hc : LOWER ch = 'c'.toUInt8 := Option.some.inj hFirst
  have hNot : ¬ 'c'.toUInt8 = 'k'.toUInt8 := by decide
  simp [valueStartSwitch, hState, hc, hNot]

/-- The digits of a length that is within bounds. -/
theorem valueRun_digits (hDigits : ∀ c ∈ rest, isDigit c = true)
    (hBound : rest.foldl (fun acc c => acc * 10 + digitValue c) p.contentLength < 2 ^ 64 - 16) :
    valueRun p .contentLength rest = some ({ p with
      contentLength := rest.foldl (fun acc c => acc * 10 + digitValue c) p.contentLength }, .contentLength) := by
  induction rest generalizing p with
  | nil => rfl
  | cons ch rest ih =>
      have hDigit := hDigits ch List.mem_cons_self
      have hSpace : ch ≠ SP := by
        rintro rfl
        revert hDigit
        decide
      have hLe := foldl_decimal_le (p.contentLength * 10 + digitValue ch) rest
      rw [List.foldl_cons] at hBound
      have hFits : ¬ (ullongMax - 10) / 10 < p.contentLength := by
        unfold ullongMax
        omega
      have hGoes : valueSwitch p .contentLength ch (LOWER ch) =
          .go ({ p with contentLength := p.contentLength * 10 + digitValue ch }, .contentLength) := by
        simp [valueSwitch, hSpace, isNum, hDigit, hFits]
      rw [valueRun, hGoes]
      exact ih (p := { p with contentLength := p.contentLength * 10 + digitValue ch })
        (fun c hc => hDigits c (List.mem_cons_of_mem ch hc)) hBound

/-- A numeral in the place of a length is read as its number. -/
theorem wholeValue_numeral {n : Nat} (hState : p.headerState = .contentLength) (hBound : n < 2 ^ 63) :
    wholeValue p (numeral n) = some { p with state := .headerValue, index := 0, contentLength := n } := by
  obtain ⟨hDigits, hDecimal⟩ := numeral_digits n
  cases hNumeral : numeral n with
  | nil => exact absurd hNumeral (numeral_ne_nil n)
  | cons ch rest =>
      rw [hNumeral] at hDigits hDecimal
      have hDigit := hDigits ch List.mem_cons_self
      have hFold : rest.foldl (fun acc c => acc * 10 + digitValue c) (digitValue ch) = n := by
        rw [← hDecimal, decimal, List.foldl_cons, Nat.zero_mul, Nat.zero_add]
      have hStart : valueStartSwitch { p with state := .headerValue, index := 0 } ch (LOWER ch) =
          .go { p with state := .headerValue, index := 0, contentLength := digitValue ch } := by
        simp [valueStartSwitch, hState, isNum, hDigit]
      have hRun := valueRun_digits
        (p := { p with state := .headerValue, index := 0, contentLength := digitValue ch })
        (fun c hc => hDigits c (List.mem_cons_of_mem ch hc)) (by rw [hFold]; omega)
      rw [hFold, ← hState] at hRun
      rw [wholeValue, hStart]
      simp only [hRun]
      rfl

theorem wholeName_connection (p : Fields) : wholeName p hfConnection =
    some { p with state := .headerField, index := 9, headerState := .connection } := rfl

theorem wholeName_transferEncoding (p : Fields) : wholeName p hfTransferEncoding =
    some { p with state := .headerField, index := 16, headerState := .transferEncoding } := rfl

/-- The second length of a message would be refused. -/
theorem wholeName_contentLen (hFlag : p.flags.contentlength = false) : wholeName p hfContentLen =
    some { p with
      state := .headerField, index := 13, headerState := .contentLength
      flags := { p.flags with contentlength := true } } := by
  obtain ⟨type, ⟨chunked, keepAlive, close, connectionUpgrade, trailing, upgrade, skipbody, contentlength⟩, state,
    headerState, index, contentLength, major, minor, status, method, upgraded⟩ := p
  dsimp only at hFlag
  subst hFlag
  rfl

/-! ### A section -/

/-- A line of which the parser makes what it says. -/
inductive Ordinary : ByteString × ByteString → Prop
  | plain {name value : ByteString} (hLower : lower name = name) (hPlain : Plain name) : Ordinary (name, value)
  | persistency {value : ByteString} (hValue : value = hvKeepalive ∨ value = hvConnectionClose) :
      Ordinary (hfConnection, value)
  | coding {value : ByteString} (hValue : lower value = ofString "chunked") : Ordinary (hfTransferEncoding, value)
  | length {n : Nat} (hBound : n < 2 ^ 63) : Ordinary (hfContentLen, numeral n)

/-- What lines declare of the framing and of the persistency, on top of what is declared. -/
def declared (lines : List (ByteString × ByteString)) (p : Fields) : Fields :=
  { p with
    contentLength := ((Multimap.valuesIn lines hfContentLen).head?.map decimal).getD p.contentLength
    flags := { p.flags with
      chunked := p.flags.chunked || Multimap.valuesIn lines hfTransferEncoding ≠ []
      contentlength := p.flags.contentlength || Multimap.valuesIn lines hfContentLen ≠ []
      connectionKeepAlive :=
        p.flags.connectionKeepAlive || (Multimap.valuesIn lines hfConnection).contains hvKeepalive
      connectionClose :=
        p.flags.connectionClose || (Multimap.valuesIn lines hfConnection).contains hvConnectionClose } }

/-- One line does what it declares. -/
theorem lineRun_declared {line : ByteString × ByteString} (hLine : Line line.1 line.2) (hOrdinary : Ordinary line)
    (hFlag : line.1 = hfContentLen → p.flags.contentlength = false) :
    ∃ p', lineRun p line = some p' ∧ kept p' = declared [line] (kept p) := by
  cases hOrdinary with
  | @plain name value hLower hPlain =>
      obtain ⟨p', hRun, hKept⟩ := @lineRun_plain (name, value) hLine (hLower.symm ▸ hPlain) p
      refine ⟨p', hRun, hKept.trans ?_⟩
      have hLength : name ≠ hfContentLen := fun hSame => hPlain.length (hSame ▸ List.prefix_refl _)
      simp [declared, Multimap.valuesIn, hLength, hPlain.connection, hPlain.coding]
  | persistency hValue =>
      have hCoding : hfConnection ≠ hfTransferEncoding := by decide
      have hLength : hfConnection ≠ hfContentLen := by decide
      have hOther : hvKeepalive ≠ hvConnectionClose := by decide
      rcases hValue with rfl | rfl
      · obtain ⟨k, hRun⟩ := wholeValue_keepAlive
          (p := { p with state := .headerField, index := 9, headerState := .connection }) rfl
        refine ⟨_, by rw [lineRun, wholeName_connection, Option.bind_some, hRun]; rfl, ?_⟩
        simp [declared, Multimap.valuesIn, hLength, hCoding, hOther.symm, kept, finishHeader, Fields.updateState]
      · obtain ⟨k, hRun⟩ := wholeValue_close
          (p := { p with state := .headerField, index := 9, headerState := .connection }) rfl
        refine ⟨_, by rw [lineRun, wholeName_connection, Option.bind_some, hRun]; rfl, ?_⟩
        simp [declared, Multimap.valuesIn, hLength, hCoding, hOther, kept, finishHeader, Fields.updateState]
  | coding hValue =>
      have hConnection : hfTransferEncoding ≠ hfConnection := by decide
      have hLength : hfTransferEncoding ≠ hfContentLen := by decide
      obtain ⟨k, hRun⟩ := wholeValue_chunked
        (p := { p with state := .headerField, index := 16, headerState := .transferEncoding }) rfl hValue
      refine ⟨_, by rw [lineRun, wholeName_transferEncoding, Option.bind_some, hRun]; rfl, ?_⟩
      simp [declared, Multimap.valuesIn, hLength, hConnection, kept, finishHeader, Fields.updateState]
  | @length n hBound =>
      have hConnection : hfContentLen ≠ hfConnection := by decide
      have hCoding : hfContentLen ≠ hfTransferEncoding := by decide
      refine ⟨_, by
        rw [lineRun, wholeName_contentLen (hFlag rfl), Option.bind_some, wholeValue_numeral rfl hBound]; rfl, ?_⟩
      simp [declared, Multimap.valuesIn, hCoding, hConnection, kept, finishHeader, Fields.updateState,
        (numeral_digits n).2]

theorem declared_cons {line : ByteString × ByteString} {lines : List (ByteString × ByteString)}
    (hOnce : line.1 = hfContentLen → Multimap.valuesIn lines hfContentLen = []) (q : Fields) :
    declared lines (declared [line] q) = declared (line :: lines) q := by
  have hSplit : ∀ key, Multimap.valuesIn (line :: lines) key =
      Multimap.valuesIn [line] key ++ Multimap.valuesIn lines key := fun key =>
    Multimap.valuesIn_append [line] lines key
  simp only [declared, hSplit]
  by_cases hLength : line.1 = hfContentLen
  · simp [hOnce hLength, Bool.or_assoc]
  · have hNone : Multimap.valuesIn [line] hfContentLen = [] := by simp [Multimap.valuesIn, hLength]
    simp [hNone, Bool.or_assoc]

/-- The lines of a section, each name in one line, do what they declare. -/
theorem sectionRun_declared {lines : List (ByteString × ByteString)} (hLines : ∀ line ∈ lines, Line line.1 line.2)
    (hOrdinary : ∀ line ∈ lines, Ordinary line) (hOnce : (lines.map Prod.fst).Nodup)
    (hFlag : hfContentLen ∈ lines.map Prod.fst → p.flags.contentlength = false) :
    ∃ p', sectionRun p lines = some p' ∧ kept p' = declared lines (kept p) := by
  induction lines generalizing p with
  | nil =>
      refine ⟨p, rfl, ?_⟩
      simp [declared]
  | cons line lines ih =>
      obtain ⟨hNew, hRest⟩ := List.nodup_cons.mp hOnce
      obtain ⟨q, hRun, hKept⟩ := lineRun_declared (p := p) (hLines line List.mem_cons_self)
        (hOrdinary line List.mem_cons_self) (fun hSame => hFlag (hSame ▸ List.mem_cons_self))
      have hFlag' : hfContentLen ∈ lines.map Prod.fst → q.flags.contentlength = false := by
        intro hLater
        have hOther : line.1 ≠ hfContentLen := fun hSame => hNew (hSame ▸ hLater)
        have hSame : (kept q).flags.contentlength = (declared [line] (kept p)).flags.contentlength := by rw [hKept]
        have hBefore := hFlag (List.mem_cons_of_mem _ hLater)
        simpa [kept, declared, Multimap.valuesIn, hOther, hBefore] using hSame
      obtain ⟨p', hRuns, hKept'⟩ := ih (fun next hNext => hLines next (List.mem_cons_of_mem line hNext))
        (fun next hNext => hOrdinary next (List.mem_cons_of_mem line hNext)) hRest hFlag'
      refine ⟨p', ?_, ?_⟩
      · rw [sectionRun, List.foldlM_cons, hRun]
        exact hRuns
      · rw [hKept', hKept]
        apply declared_cons
        intro hSame
        apply Multimap.valuesIn_eq_nil_iff.mpr
        intro e hMem hKey
        exact hNew (List.mem_map.mpr ⟨e, hMem, hKey.trans hSame.symm⟩)

end Doormat.Http
