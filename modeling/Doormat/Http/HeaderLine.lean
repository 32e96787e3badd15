import Doormat.Parser.Budget
import Doormat.Parser.Chunks
import Doormat.Http.Commons
import Doormat.Http.Grammar

/-! A header line byte by byte: its name, a colon and a space, its value, and a line end.
What the parser matches names and values against may only stop it where the line states
a content length. -/
namespace Doormat.Http

open Bytes Doormat.Parser

/-! ### The name -/

/-- The state of the parser after the first `k` characters of `content-length`. -/
def lengthState (k : Nat) : HeaderState :=
  if k = 1 then .C
  else if k = 2 then .CO
  else if k = 3 then .CON
  else if k = 14 then .contentLength
  else .matchingContentLength

/-- The states of a name that is not on the way to `content-length`. -/
def offTrack : HeaderState → Bool
  | .general | .matchingConnection | .matchingProxyConnection | .matchingTransferEncoding
  | .matchingUpgrade | .connection | .transferEncoding | .upgrade => true
  | _ => false

/-- The parser after the characters `read` of a name, in a section that has `stated` a
content length or has not. It does not get past a second one. -/
inductive Naming (stated : Bool) (read : ByteString) (p : Fields) : Prop
  | onTrack (hPrefix : read <+: hfContentLen) (hPos : 0 < read.length)
      (hState : p.headerState = lengthState read.length) (hIndex : p.index + 1 = read.length)
      (hFlag : read.length < 14 → p.flags.contentlength = stated)
      (hOnce : hfContentLen <+: read → stated = false)
  | off (hNot : ¬ read <+: hfContentLen) (hState : offTrack p.headerState = true)
      (hOnce : hfContentLen <+: read → stated = false)

theorem Naming.once {stated : Bool} {read : ByteString} {p : Fields} (h : Naming stated read p) :
    hfContentLen <+: read → stated = false := by
  cases h with
  | onTrack _ _ _ _ _ hOnce => exact hOnce
  | off _ _ hOnce => exact hOnce

theorem once_snoc {stated : Bool} {read : ByteString} {c : UInt8}
    (hOnce : hfContentLen <+: read → stated = false) (hNot : read ++ [c] ≠ hfContentLen) :
    hfContentLen <+: read ++ [c] → stated = false := by
  intro hLong
  cases List.prefix_concat_iff.mp hLong with
  | inl hWhole => exact absurd hWhole.symm hNot
  | inr hShort => exact hOnce hShort

theorem prefix_snoc {read whole : ByteString} (h : read <+: whole) (c : UInt8) :
    read ++ [c] <+: whole ↔ whole[read.length]? = some c := by
  obtain ⟨rest, rfl⟩ := h
  rw [List.prefix_append_right_inj, List.getElem?_append_right (Nat.le_refl _), Nat.sub_self]
  cases rest with
  | nil => simp
  | cons d rest => simp [List.cons_prefix_cons, eq_comm]

theorem not_prefix_snoc {read whole : ByteString} (h : ¬ read <+: whole) (c : UInt8) :
    ¬ read ++ [c] <+: whole := fun hLong => h ((List.prefix_append read [c]).trans hLong)

theorem length_hfContentLen : hfContentLen.length = 14 := by decide

theorem naming_first {stated : Bool} {q : Fields} (hFlag : q.flags.contentlength = stated) (c : UInt8) :
    Naming stated [c] { q with state := .headerField, index := 0, headerState := firstHeaderState c } := by
  have hOnce : hfContentLen <+: [c] → stated = false := by
    intro hLong
    have hLength := hLong.length_le
    rw [length_hfContentLen] at hLength
    cases hLength
    contradiction
  by_cases hc : c = 'c'.toUInt8
  · subst hc
    exact .onTrack (by decide) (by decide) rfl rfl (fun _ => hFlag) hOnce
  · refine .off ?_ ?_ hOnce
    · intro hPrefix
      have hFirst := (prefix_snoc (List.nil_prefix (l := hfContentLen)) c).mp hPrefix
      have hHead : hfContentLen[0]? = some 'c'.toUInt8 := by decide
      rw [List.length_nil, hHead] at hFirst
      exact hc (Option.some.inj hFirst).symm
    · simp only [firstHeaderState, hc, if_false]
      repeat' split
      all_goals rfl

theorem matchNext_off (p : Fields) (c : UInt8) (constant : ByteString) {done h : HeaderState}
    (hDone : offTrack done = true) (hStay : offTrack h = true) :
    offTrack (matchNext p c constant done .general h).2 = true := by
  unfold matchNext
  dsimp only
  split
  · rfl
  split
  · exact hDone
  · exact hStay

/-- Off the track the parser goes on, and stays off. -/
theorem fieldSwitch_off {p : Fields} (hState : offTrack p.headerState = true) {ch : UInt8} (c : UInt8)
    (hSpace : ch ≠ SP) : ∃ p', fieldSwitch p ch c = .go p' ∧ offTrack p'.headerState = true := by
  have hName : ∀ (constant : ByteString) {done : HeaderState}, offTrack done = true →
      offTrack (matchNext p c constant done .general p.headerState).2 = true :=
    fun constant _ hDone => matchNext_off p c constant hDone hState
  unfold fieldSwitch
  split
  case h_1 => exact ⟨p, rfl, hState⟩
  case h_5 => exact ⟨_, rfl, hName _ rfl⟩
  case h_6 => exact ⟨_, rfl, hName _ rfl⟩
  case h_8 => exact ⟨_, rfl, hName _ rfl⟩
  case h_9 => exact ⟨_, rfl, hName _ rfl⟩
  case h_10 | h_11 | h_12 | h_13 =>
    rw [if_pos hSpace]
    exact ⟨_, rfl, rfl⟩
  all_goals simp_all [offTrack]

theorem matchNext_miss {p : Fields} {c : UInt8} {constant : ByteString} {done other h : HeaderState}
    {k : Nat} (hIndex : p.index + 1 = k) (hc : ¬ constant[k]? = some c) :
    matchNext p c constant done other h = ({ p with index := p.index + 1 }, other) := by
  subst hIndex
  exact if_pos hc

theorem matchNext_done {p : Fields} {c : UInt8} {constant : ByteString} {done other h : HeaderState}
    {k : Nat} (hIndex : p.index + 1 = k) (hc : constant[k]? = some c) (hLast : k + 1 = constant.length) :
    matchNext p c constant done other h = ({ p with index := p.index + 1 }, done) := by
  subst hIndex
  exact (if_neg (fun hNot => hNot hc)).trans (if_pos hLast)

theorem matchNext_more {p : Fields} {c : UInt8} {constant : ByteString} {done other h : HeaderState}
    {k : Nat} (hIndex : p.index + 1 = k) (hc : constant[k]? = some c) (hMore : ¬ k + 1 = constant.length) :
    matchNext p c constant done other h = ({ p with index := p.index + 1 }, h) := by
  subst hIndex
  exact (if_neg (fun hNot => hNot hc)).trans (if_neg hMore)

/-- On the way through `content-length`, with the outcome `h` of the match. -/
theorem fieldSwitch_length {p : Fields} (hState : p.headerState = .matchingContentLength) {ch c : UInt8}
    {h : HeaderState}
    (hMatch : matchNext p c hfContentLen .contentLength .general p.headerState =
      ({ p with index := p.index + 1 }, h)) :
    fieldSwitch p ch c =
      if h = .contentLength then
        if p.flags.contentlength then .error { p with index := p.index + 1 } .unexpectedContentLength
        else .go { p with
          index := p.index + 1, headerState := h, flags := { p.flags with contentlength := true } }
      else .go { p with index := p.index + 1, headerState := h } := by
  have hName : ofString "content-length" = hfContentLen := rfl
  simp only [fieldSwitch]
  rw [hState]
  simp only [hName, ← hState, hMatch]

/-- A character of a name is the last of a second content length. -/
def Repeats (stated : Bool) (read : ByteString) (p : Fields) (ch c : UInt8) : Prop :=
  (∃ p' e, fieldSwitch p ch c = .error p' e) ∧ stated = true ∧ read ++ [c] = hfContentLen

/-- On the track the next character of `content-length` keeps it there, and any other
leads off. -/
theorem fieldSwitch_on {stated : Bool} {read : ByteString} {p : Fields} (hPrefix : read <+: hfContentLen)
    (hPos : 0 < read.length) (hState : p.headerState = lengthState read.length)
    (hIndex : p.index + 1 = read.length) (hFlag : read.length < 14 → p.flags.contentlength = stated)
    (hOnce : hfContentLen <+: read → stated = false) {ch : UInt8} (c : UInt8) (hSpace : ch ≠ SP) :
    (∃ p', fieldSwitch p ch c = .go p' ∧ Naming stated (read ++ [c]) p') ∨ Repeats stated read p ch c := by
  have hLength : read.length ≤ 14 := length_hfContentLen ▸ hPrefix.length_le
  have hNext := prefix_snoc hPrefix c
  have hLong : (read ++ [c]).length = read.length + 1 := by simp
  have hShort : read.length ≠ 13 → hfContentLen <+: read ++ [c] → stated = false := by
    intro hLast
    apply once_snoc hOnce
    intro hWhole
    rw [hWhole, length_hfContentLen] at hLong
    omega
  -- the first letters and the whole name have states of their own
  have hCases : read.length = 1 ∨ read.length = 2 ∨ read.length = 3 ∨ read.length = 14 ∨
      3 < read.length ∧ read.length < 14 := by omega
  rcases hCases with hk | hk | hk | hk | hk
  case inl =>
    rw [hk] at hState hNext
    have hGoes : fieldSwitch p ch c = .go { p with
        index := p.index + 1, headerState := if c = 'o'.toUInt8 then .CO else .general } := by
      simp [fieldSwitch, hState, lengthState]
    refine .inl ⟨_, hGoes, ?_⟩
    by_cases hc : c = 'o'.toUInt8
    · have hOn := hNext.mpr (by rw [hc]; decide)
      exact .onTrack hOn (by omega) (by simp [hc, hk, lengthState]) (by simp [hIndex])
        (fun _ => hFlag (by omega)) (hShort (by omega))
    · refine .off (fun hOn => hc ?_) (by simp [hc, offTrack]) (hShort (by omega))
      exact (Option.some.inj (hNext.mp hOn)).symm
  case inr.inl =>
    rw [hk] at hState hNext
    have hGoes : fieldSwitch p ch c = .go { p with
        index := p.index + 1, headerState := if c = 'n'.toUInt8 then .CON else .general } := by
      simp [fieldSwitch, hState, lengthState]
    refine .inl ⟨_, hGoes, ?_⟩
    by_cases hc : c = 'n'.toUInt8
    · have hOn := hNext.mpr (by rw [hc]; decide)
      exact .onTrack hOn (by omega) (by simp [hc, hk, lengthState]) (by simp [hIndex])
        (fun _ => hFlag (by omega)) (hShort (by omega))
    · refine .off (fun hOn => hc ?_) (by simp [hc, offTrack]) (hShort (by omega))
      exact (Option.some.inj (hNext.mp hOn)).symm
  case inr.inr.inl =>
    rw [hk] at hState hNext
    have hGoes : fieldSwitch p ch c = .go { p with
        index := p.index + 1,
        headerState := if c = 'n'.toUInt8 then .matchingConnection
          else if c = 't'.toUInt8 then .matchingContentLength else .general } := by
      simp [fieldSwitch, hState, lengthState]
    refine .inl ⟨_, hGoes, ?_⟩
    by_cases hc : c = 't'.toUInt8
    · have hOn := hNext.mpr (by rw [hc]; decide)
      exact .onTrack hOn (by omega) (by rw [hLong, hk, hc]; rfl) (by simp [hIndex])
        (fun _ => hFlag (by omega)) (hShort (by omega))
    · refine .off (fun hOn => hc ?_) ?_ (hShort (by omega))
      · exact (Option.some.inj (hNext.mp hOn)).symm
      · simp only [hc, if_false]
        split
        all_goals rfl
  case inr.inr.inr.inl =>
    rw [hk] at hState hNext
    have hGoes : fieldSwitch p ch c = .go { p with headerState := .general } := by
      simp [fieldSwitch, hState, lengthState, hSpace]
    refine .inl ⟨_, hGoes, .off (fun hOn => ?_) rfl (hShort (by omega))⟩
    have hNone := hNext.mp hOn
    cases hNone
  case inr.inr.inr.inr =>
    have hMatching : p.headerState = .matchingContentLength := by
      rw [hState, lengthState, if_neg (by omega), if_neg (by omega), if_neg (by omega), if_neg (by omega)]
    by_cases hc : hfContentLen[read.length]? = some c
    · have hOn := hNext.mpr hc
      by_cases hLast : read.length = 13
      · have hWhole : read ++ [c] = hfContentLen :=
          hOn.eq_of_length (by rw [hLong, hLast, length_hfContentLen])
        have hGoes := @fieldSwitch_length _ hMatching ch c _ (matchNext_done hIndex hc (by
          rw [hLast, length_hfContentLen]))
        rw [if_pos rfl, hFlag hk.2] at hGoes
        cases stated with
        | true => exact .inr ⟨⟨_, _, hGoes⟩, rfl, hWhole⟩
        | false =>
            refine .inl ⟨_, hGoes, .onTrack hOn (by omega) ?_ ?_ (fun hLt => ?_) fun _ => rfl⟩
            · rw [hLong, hLast]
              rfl
            · rw [hLong, ← hIndex]
            · omega
      · have hGoes := @fieldSwitch_length _ hMatching ch c _ (matchNext_more hIndex hc (by
          rw [length_hfContentLen]
          omega))
        rw [if_neg (by rw [hMatching]; decide)] at hGoes
        refine .inl ⟨_, hGoes, .onTrack hOn (by omega) ?_ ?_ (fun _ => hFlag hk.2) (hShort hLast)⟩
        · rw [hLong, lengthState, if_neg (by omega), if_neg (by omega), if_neg (by omega),
            if_neg (by omega)]
          exact hMatching
        · rw [hLong, ← hIndex]
    · have hGoes := @fieldSwitch_length _ hMatching ch c _ (matchNext_miss hIndex hc)
      rw [if_neg (by decide)] at hGoes
      have hOff : ¬ read ++ [c] <+: hfContentLen := fun hOn => hc (hNext.mp hOn)
      exact .inl ⟨_, hGoes, .off hOff rfl (once_snoc hOnce fun hWhole => hOff (hWhole ▸ List.prefix_refl _))⟩

theorem Naming.step {stated : Bool} {read : ByteString} {p : Fields} (h : Naming stated read p) {ch : UInt8}
    (c : UInt8) (hSpace : ch ≠ SP) :
    (∃ p', fieldSwitch p ch c = .go p' ∧ Naming stated (read ++ [c]) p') ∨ Repeats stated read p ch c := by
  cases h with
  | onTrack hPrefix hPos hState hIndex hFlag hOnce =>
      exact fieldSwitch_on hPrefix hPos hState hIndex hFlag hOnce c hSpace
  | off hNot hState hOnce =>
      obtain ⟨p', hGoes, hOff⟩ := fieldSwitch_off hState c hSpace
      have hStill := not_prefix_snoc hNot c
      exact .inl ⟨p', hGoes, .off hStill hOff
        (once_snoc hOnce fun hWhole => hStill (hWhole ▸ List.prefix_refl _))⟩

/-- At the end of a name the parser knows whether it is `content-length`. -/
theorem Naming.contentLength_iff {stated : Bool} {read : ByteString} {p : Fields} (h : Naming stated read p) :
    p.headerState = .contentLength ↔ read = hfContentLen := by
  cases h with
  | onTrack hPrefix hPos hState =>
      rw [hState]
      constructor
      · intro hLength
        have hk : read.length = 14 := by
          unfold lengthState at hLength
          repeat' split at hLength
          all_goals first
            | assumption
            | cases hLength
        exact hPrefix.eq_of_length (hk.trans length_hfContentLen.symm)
      · intro hWhole
        rw [hWhole]
        rfl
  | off hNot hState =>
      constructor
      · intro hLength
        rw [hLength] at hState
        cases hState
      · intro hWhole
        rw [hWhole] at hNot
        exact absurd (List.prefix_refl hfContentLen) hNot

/-! ### The value -/

/-- Do the bytes continue the length `n`, as far as the parser reads lengths? -/
def lengthGoes (n : Nat) : ByteString → Bool
  | [] => true
  | ch :: rest =>
      if ch = SP then lengthGoes n rest
      else isNum ch && decide (n ≤ (ullongMax - 10) / 10) && lengthGoes (n * 10 + digitValue ch) rest

/-- Does the parser read the value of a `content-length` to its end? -/
def readsLength : ByteString → Bool
  | [] => true
  | ch :: rest => isNum ch && lengthGoes (digitValue ch) rest

/-- A line that states a content length states one that the parser reads. -/
def Legible (name value : ByteString) : Prop := lower name = hfContentLen → readsLength value = true

/-- The parser takes the line in a section that has `stated` a content length or has not. It
knows the name by its first characters. -/
structure Admissible (stated : Bool) (name value : ByteString) : Prop where
  once : hfContentLen <+: lower name → stated = false
  legible : Legible name value

/-- The states within a value that states no content length. -/
def harmless : HeaderState → Bool
  | .connection | .transferEncoding | .contentLength => false
  | _ => true

theorem matchNext_harmless (p : Fields) (c : UInt8) (constant : ByteString) {done other h : HeaderState}
    (hDone : harmless done = true) (hOther : harmless other = true) (hStay : harmless h = true) :
    harmless (matchNext p c constant done other h).2 = true := by
  unfold matchNext
  dsimp only
  split
  · exact hOther
  split
  · exact hDone
  · exact hStay

theorem valueSwitch_harmless (p : Fields) {h : HeaderState} (hState : harmless h = true) (ch c : UInt8) :
    ∃ r, valueSwitch p h ch c = .go r ∧ harmless r.2 = true := by
  unfold valueSwitch
  split
  all_goals
    repeat' split
  all_goals first
    | exact ⟨_, rfl, rfl⟩
    | exact ⟨_, rfl, matchNext_harmless p c _ rfl rfl rfl⟩
    | exact ⟨_, rfl, hState⟩
    | cases hState

theorem valueStartSwitch_harmless {p : Fields} (hState : p.headerState ≠ .contentLength) (ch c : UInt8) :
    ∃ p', valueStartSwitch p ch c = .go p' ∧ harmless p'.headerState = true := by
  unfold valueStartSwitch
  split
  case h_3 hLength => exact absurd hLength hState
  case h_5 hList =>
    refine ⟨p, rfl, ?_⟩
    rw [hList]
    rfl
  all_goals
    refine ⟨_, rfl, ?_⟩
    dsimp only
    repeat' split
    all_goals rfl

/-- The parser with `rest` of a value left to read, and `h` matched so far. -/
inductive Valuing (name value rest : ByteString) (p : Fields) (h : HeaderState) : Prop
  | length (hName : lower name = hfContentLen) (hState : h = .contentLength)
      (hGoes : readsLength value = lengthGoes p.contentLength rest)
  | other (hName : lower name ≠ hfContentLen) (hState : harmless h = true)

variable {name value rest : ByteString} {p : Fields} {h : HeaderState} {ch : UInt8}

theorem valuing_start (hLength : p.headerState = .contentLength ↔ lower name = hfContentLen)
    (hValue : value = ch :: rest) (c : UInt8) :
    (∃ p', valueStartSwitch p ch c = .go p' ∧ Valuing name value rest p' p'.headerState) ∨
      (∃ p' e, valueStartSwitch p ch c = .error p' e) ∧ ¬ Legible name value := by
  by_cases hName : lower name = hfContentLen
  · have hState := hLength.mpr hName
    by_cases hNum : isNum ch = true
    · left
      refine ⟨{ p with contentLength := digitValue ch }, ?_, .length hName hState ?_⟩
      · simp [valueStartSwitch, hState, hNum]
      · rw [hValue, readsLength, hNum, Bool.true_and]
    · right
      refine ⟨⟨p, .invalidContentLength, ?_⟩, fun hLegible => ?_⟩
      · simp [valueStartSwitch, hState, hNum]
      · have hReads := hLegible hName
        rw [hValue, readsLength, Bool.and_eq_true] at hReads
        exact hNum hReads.1
  · obtain ⟨p', hGoes, hHarmless⟩ := valueStartSwitch_harmless (fun hState => hName (hLength.mp hState)) ch c
    exact .inl ⟨p', hGoes, .other hName hHarmless⟩

theorem Valuing.step (hValuing : Valuing name value (ch :: rest) p h) (c : UInt8) :
    (∃ r, valueSwitch p h ch c = .go r ∧ Valuing name value rest r.1 r.2) ∨
      (∃ p' e, valueSwitch p h ch c = .error p' e) ∧ ¬ Legible name value := by
  cases hValuing with
  | length hName hState hGoes =>
      subst hState
      rw [lengthGoes] at hGoes
      by_cases hSpace : ch = SP
      · rw [if_pos hSpace] at hGoes
        refine .inl ⟨(p, .contentLength), ?_, .length hName rfl hGoes⟩
        simp [valueSwitch, hSpace]
      rw [if_neg hSpace] at hGoes
      have hIllegible : isNum ch = false ∨ ¬ p.contentLength ≤ (ullongMax - 10) / 10 →
          ¬ Legible name value := by
        intro hBad hLegible
        rw [hLegible hName] at hGoes
        have hBoth := (Bool.and_eq_true_iff.mp (Bool.and_eq_true_iff.mp hGoes.symm).1)
        cases hBad with
        | inl hNum =>
            rw [hNum] at hBoth
            cases hBoth.1
        | inr hFits => exact hFits (of_decide_eq_true hBoth.2)
      by_cases hNum : isNum ch = true
      · by_cases hFits : p.contentLength ≤ (ullongMax - 10) / 10
        · refine .inl ⟨({ p with contentLength := p.contentLength * 10 + digitValue ch }, .contentLength),
            ?_, .length hName rfl ?_⟩
          · have hNot : ¬ (ullongMax - 10) / 10 < p.contentLength := Nat.not_lt.mpr hFits
            simp [valueSwitch, hSpace, hNum, hNot]
          · rw [hGoes, hNum, decide_eq_true hFits]
            rfl
        · refine .inr ⟨⟨p, .invalidContentLength, ?_⟩, hIllegible (.inr hFits)⟩
          have hOver : (ullongMax - 10) / 10 < p.contentLength := Nat.lt_of_not_le hFits
          simp [valueSwitch, hSpace, hNum, hOver]
      · refine .inr ⟨⟨p, .invalidContentLength, ?_⟩, hIllegible (.inl (by simpa using hNum))⟩
        simp [valueSwitch, hSpace, hNum]
  | other hName hState =>
      obtain ⟨r, hGoes, hHarmless⟩ := valueSwitch_harmless p hState ch c
      exact .inl ⟨r, hGoes, .other hName hHarmless⟩

theorem Valuing.legible (hValuing : Valuing name value [] p h) : Legible name value := by
  intro hName
  cases hValuing with
  | length hName' hState hGoes =>
      rw [hGoes]
      rfl
  | other hName' hState => exact absurd hName hName'

/-! ### A line -/

/-- A line as it is written. -/
def lineBytes (name value : ByteString) : ByteString := name ++ ':'.toUInt8 :: SP :: (value ++ [CR, LF])

/-- A name is a token, and a value is made of the bytes of header values and does not
start with a blank. -/
structure Line (name value : ByteString) : Prop where
  named : name ≠ []
  token : ∀ c ∈ name, token c ≠ 0
  chars : ∀ c ∈ value, isHeaderChar c = true ∧ c ≠ CR ∧ c ≠ LF
  start : ∀ c ∈ value.head?, c ≠ SP ∧ c ≠ HT

/-- Within a value: the bytes behind the mark, and what the loop at hand has matched. -/
structure InValue (l : Locals) (front : ByteString) (h : HeaderState) : Prop where
  mark : l.mark = some (.headerValue, front)
  loop : (l.loop = .outer ∧ l.fields.state = .headerValue ∧ h = l.fields.headerState) ∨
    ∃ read skip, l.loop = .value read h skip

/-- The parser with `todo` left of a line, after it has called `said`. The section has
stated what `q` says. -/
inductive LineAt (q : Fields) (name value : ByteString) : ByteString → List Callback → Locals → Prop
  | start {p : Fields} {n : Nat} (hState : p.state = .headerFieldStart) (hAlike : Alike q p)
      (hFlag : p.flags.contentlength = q.flags.contentlength) :
      LineAt q name value (lineBytes name value) [] ⟨p, n, none, .outer⟩
  | name {front rest : ByteString} {l : Locals} (hName : front ++ rest = name)
      (hMark : l.mark = some (.headerField, front))
      (hLoop : l.loop = .outer ∧ l.fields.state = .headerField ∨ ∃ read, l.loop = .field read)
      (hAlike : Alike q l.fields) (hNaming : Naming q.flags.contentlength (lower front) l.fields) :
      LineAt q name value (rest ++ ':'.toUInt8 :: SP :: (value ++ [CR, LF])) [] l
  | colon {p : Fields} {n : Nat} {rest : ByteString} (hRest : rest = SP :: value ∨ rest = value)
      (hState : p.state = .headerValueDiscardWs) (hAlike : Alike q p)
      (hLength : p.headerState = .contentLength ↔ lower name = hfContentLen)
      (hOnce : hfContentLen <+: lower name → q.flags.contentlength = false) :
      LineAt q name value (rest ++ [CR, LF]) [.data 0 .headerField name] ⟨p, n, none, .outer⟩
  | value {front rest : ByteString} {l : Locals} {h : HeaderState} (hValue : front ++ rest = value)
      (hIn : InValue l front h) (hAlike : Alike q l.fields) (hValuing : Valuing name value rest l.fields h)
      (hOnce : hfContentLen <+: lower name → q.flags.contentlength = false) :
      LineAt q name value (rest ++ [CR, LF]) [.data 0 .headerField name] l
  | lineFeed {p : Fields} {n : Nat} (hState : p.state = .headerAlmostDone) (hAlike : Alike q p)
      (hAdmissible : Admissible q.flags.contentlength name value) :
      LineAt q name value [LF] [.data 0 .headerField name, .data 0 .headerValue value]
        ⟨p, n, none, .outer⟩
  | lineFeedEmpty {p : Fields} {n : Nat} (hState : p.state = .headerValueDiscardWsAlmostDone)
      (hAlike : Alike q p) (hValue : value = [])
      (hOnce : hfContentLen <+: lower name → q.flags.contentlength = false) :
      LineAt q name value [LF] [.data 0 .headerField name] ⟨p, n, none, .outer⟩
  | finished {p : Fields} {n : Nat} (hState : p.state = .headerValueLws) (hAlike : Alike q p)
      (hAdmissible : Admissible q.flags.contentlength name value) :
      LineAt q name value [] [.data 0 .headerField name, .data 0 .headerValue value]
        ⟨p, n, none, .outer⟩
  | finishedEmpty {p : Fields} {n : Nat} (hState : p.state = .headerValueDiscardLws) (hAlike : Alike q p)
      (hValue : value = []) (hOnce : hfContentLen <+: lower name → q.flags.contentlength = false) :
      LineAt q name value [] [.data 0 .headerField name] ⟨p, n, none, .outer⟩

variable {q : Fields} {n : Nat} {front : ByteString}

theorem ne_lineEnd_of_token (h : token ch ≠ 0) : ch ≠ CR ∧ ch ≠ LF ∧ ch ≠ SP := by
  revert h
  exact forall_byte (P := fun ch => token ch ≠ 0 → ch ≠ CR ∧ ch ≠ LF ∧ ch ≠ SP) (by decide +kernel) ch

theorem lower_snoc (h : token ch ≠ 0) (front : ByteString) : lower (front ++ [ch]) = lower front ++ [token ch] := by
  rw [lower_append, token_eq_toLower h]
  rfl

/-- The first byte of a name. -/
theorem read_nameStart (hState : p.state = .headerFieldStart) (hToken : token ch ≠ 0)
    (hRoom : n + 1 ≤ httpMaxHeaderSize) :
    (Locals.mk p n none .outer).read ch =
      some (⟨{ p with state := .headerField, index := 0, headerState := firstHeaderState (token ch) },
        n + 1, some (.headerField, [ch]), .outer⟩, []) := by
  obtain ⟨hCR, hLF, -⟩ := ne_lineEnd_of_token hToken
  have hCount : ¬ n + 1 > httpMaxHeaderSize := by omega
  simp [Locals.read, step, hState, State.parsingHeader, Prog.emit, hCount, dispatch, headerFieldStart, hCR,
    hLF, hToken, Fields.advance, Flow.locals]

/-- A further byte of a name. -/
theorem read_name {l : Locals} {p' : Fields} (hMark : l.mark = some (.headerField, front))
    (hLoop : l.loop = .outer ∧ l.fields.state = .headerField ∨ ∃ read, l.loop = .field read)
    (hToken : token ch ≠ 0) (hGoes : fieldSwitch l.fields ch (token ch) = .go p')
    (hRoom : l.counted ≤ httpMaxHeaderSize) :
    ∃ l', l.read ch = some (l', []) ∧ l'.mark = some (.headerField, front ++ [ch]) ∧
      (∃ read, l'.loop = .field read) ∧ l'.fields = p' ∧ l'.counted = l.counted + 1 := by
  obtain ⟨fields, nread, mark, loop⟩ := l
  simp only at hMark hLoop hGoes
  subst hMark
  cases hLoop with
  | inl hOuter =>
      obtain ⟨rfl, hState⟩ := hOuter
      simp only [Locals.counted, Loop.pending, hState, State.parsingHeader, if_true] at hRoom ⊢
      have hCount : ¬ nread + 1 > httpMaxHeaderSize := by omega
      refine ⟨⟨p', nread + 1, some (.headerField, front ++ [ch]), .field 1⟩, ?_, rfl, ⟨1, rfl⟩, rfl, rfl⟩
      simp [Locals.read, Parser.step, hState, State.parsingHeader, Prog.emit, hCount, dispatch, headerField,
        hToken, hGoes, Flow.locals]
  | inr hInner =>
      obtain ⟨read, rfl⟩ := hInner
      refine ⟨⟨p', nread, some (.headerField, front ++ [ch]), .field (read + 1)⟩, ?_, rfl,
        ⟨read + 1, rfl⟩, rfl, rfl⟩
      simp [Locals.read, Parser.step, Prog.emit, headerField, hToken, hGoes, Flow.locals]

/-- A byte at which a name stops the parser. -/
theorem read_nameError {l : Locals} {p' : Fields} {e : Errno} (hMark : l.mark = some (.headerField, front))
    (hLoop : l.loop = .outer ∧ l.fields.state = .headerField ∨ ∃ read, l.loop = .field read)
    (hToken : token ch ≠ 0) (hFails : fieldSwitch l.fields ch (token ch) = .error p' e) : l.read ch = none := by
  obtain ⟨fields, nread, mark, loop⟩ := l
  simp only at hMark hLoop hFails
  subst hMark
  cases hLoop with
  | inl hOuter =>
      obtain ⟨rfl, hState⟩ := hOuter
      simp [Locals.read, Parser.step, hState, State.parsingHeader, Prog.emit, dispatch, headerField, hToken, hFails,
        Fields.fail]
  | inr hInner =>
      obtain ⟨read, rfl⟩ := hInner
      simp [Locals.read, Parser.step, Prog.emit, headerField, hToken, hFails, Fields.fail]

/-- The colon after a name. -/
theorem read_colon {l : Locals} (hMark : l.mark = some (.headerField, front))
    (hLoop : l.loop = .outer ∧ l.fields.state = .headerField ∨ ∃ read, l.loop = .field read)
    (hRoom : l.counted ≤ httpMaxHeaderSize) :
    l.read ':'.toUInt8 =
      some (⟨l.fields.updateState .headerValueDiscardWs, l.counted, none, .outer⟩,
        [.data 0 .headerField front]) := by
  obtain ⟨fields, nread, mark, loop⟩ := l
  simp only at hMark hLoop
  subst hMark
  have hToken : token ':'.toUInt8 = 0 := by decide
  cases hLoop with
  | inl hOuter =>
      obtain ⟨rfl, hState⟩ := hOuter
      simp only [Locals.counted, Loop.pending, hState, State.parsingHeader, if_true] at hRoom ⊢
      have hCount : ¬ nread + 1 > httpMaxHeaderSize := by omega
      simp [Locals.read, Parser.step, hState, State.parsingHeader, Prog.emit, hCount, dispatch, headerField,
        hToken, Fields.advance, Flow.locals, Mark.code]
  | inr hInner =>
      obtain ⟨read, rfl⟩ := hInner
      simp only [Locals.counted, Loop.pending] at hRoom ⊢
      have hCount : ¬ nread + read > httpMaxHeaderSize := by omega
      simp [Locals.read, Parser.step, Prog.emit, hCount, headerField, hToken, Fields.advance, Flow.locals,
        Mark.code]

/-- The space after a colon. -/
theorem read_space (hState : p.state = .headerValueDiscardWs) (hRoom : n + 1 ≤ httpMaxHeaderSize) :
    (Locals.mk p n none .outer).read SP = some (⟨p, n + 1, none, .outer⟩, []) := by
  have hCount : ¬ n + 1 > httpMaxHeaderSize := by omega
  simp [Locals.read, step, hState, State.parsingHeader, Prog.emit, hCount, dispatch, headerValueDiscardWs,
    Fields.advance, Flow.locals]

/-- The first byte of a value. -/
theorem read_valueStart (hState : p.state = .headerValueDiscardWs) (hBlank : ch ≠ SP ∧ ch ≠ HT)
    (hEnd : ch ≠ CR ∧ ch ≠ LF) (hRoom : n + 1 ≤ httpMaxHeaderSize) :
    (Locals.mk p n none .outer).read ch =
      match valueStartSwitch { p with state := .headerValue, index := 0 } ch (LOWER ch) with
      | .go p' => some (⟨p', n + 1, some (.headerValue, [ch]), .outer⟩, [])
      | _ => none := by
  have hCount : ¬ n + 1 > httpMaxHeaderSize := by omega
  cases hSwitch : valueStartSwitch { p with state := .headerValue, index := 0 } ch (LOWER ch) with
  | go p' =>
      simp [Locals.read, step, hState, State.parsingHeader, Prog.emit, hCount, dispatch,
        headerValueDiscardWs, hBlank, hEnd, headerValueStart, hSwitch, Fields.advance, Flow.locals]
  | error p' e =>
      simp [Locals.read, step, hState, State.parsingHeader, Prog.emit, hCount, dispatch,
        headerValueDiscardWs, hBlank, hEnd, headerValueStart, hSwitch, Fields.fail]
  | abort =>
      simp [Locals.read, step, hState, State.parsingHeader, Prog.emit, hCount, dispatch,
        headerValueDiscardWs, hBlank, hEnd, headerValueStart, hSwitch]

/-- The line end after an empty value. -/
theorem read_emptyEnd (hState : p.state = .headerValueDiscardWs) (hRoom : n + 1 ≤ httpMaxHeaderSize) :
    (Locals.mk p n none .outer).read CR =
      some (⟨p.updateState .headerValueDiscardWsAlmostDone, n + 1, none, .outer⟩, []) := by
  have hCount : ¬ n + 1 > httpMaxHeaderSize := by omega
  have hBlank : CR ≠ SP ∧ CR ≠ HT := by decide
  simp [Locals.read, step, hState, State.parsingHeader, Prog.emit, hCount, dispatch, headerValueDiscardWs,
    hBlank, Fields.advance, Flow.locals]

/-- The line feed at the end of a line. -/
theorem read_lineFeed (hState : p.state = .headerAlmostDone) (hRoom : n + 1 ≤ httpMaxHeaderSize) :
    (Locals.mk p n none .outer).read LF =
      some (⟨p.updateState .headerValueLws, n + 1, none, .outer⟩, []) := by
  have hCount : ¬ n + 1 > httpMaxHeaderSize := by omega
  simp [Locals.read, step, hState, State.parsingHeader, Prog.emit, hCount, dispatch, headerAlmostDone,
    Fields.advance, Flow.locals]

theorem read_lineFeedEmpty (hState : p.state = .headerValueDiscardWsAlmostDone)
    (hRoom : n + 1 ≤ httpMaxHeaderSize) :
    (Locals.mk p n none .outer).read LF =
      some (⟨p.updateState .headerValueDiscardLws, n + 1, none, .outer⟩, []) := by
  have hCount : ¬ n + 1 > httpMaxHeaderSize := by omega
  simp [Locals.read, step, hState, State.parsingHeader, Prog.emit, hCount, dispatch, literal,
    Fields.strictCheck, Fields.advance, Flow.locals]

/-- What the loop goes on with after a byte of a value. -/
def afterValue (n read : Nat) (held : ByteString) (h : HeaderState) :
    Switch (Fields × HeaderState) → Option (Locals × List Callback)
  | .go (p, h') =>
      some (⟨p, n, some (.headerValue, held), .value read h' (if h = .general then some 1 else none)⟩, [])
  | _ => none

theorem read_valueOuter (hState : p.state = .headerValue)
    (hChar : isHeaderChar ch = true ∧ ch ≠ CR ∧ ch ≠ LF) (hRoom : n + 1 ≤ httpMaxHeaderSize) :
    (Locals.mk p n (some (.headerValue, front)) .outer).read ch =
      afterValue (n + 1) 1 (front ++ [ch]) p.headerState
        (valueSwitch p p.headerState ch (LOWER ch)) := by
  have hCount : ¬ n + 1 > httpMaxHeaderSize := by omega
  cases hSwitch : valueSwitch p p.headerState ch (LOWER ch) with
  | go r =>
      simp [Locals.read, step, hState, State.parsingHeader, Prog.emit, hCount, dispatch, headerValue,
        hChar, hSwitch, Flow.locals, afterValue]
  | error p' e =>
      simp [Locals.read, step, hState, State.parsingHeader, Prog.emit, hCount, dispatch, headerValue,
        hChar, hSwitch, Fields.fail, afterValue]
  | abort =>
      simp [Locals.read, step, hState, State.parsingHeader, Prog.emit, hCount, dispatch, headerValue,
        hChar, hSwitch, afterValue]

theorem read_valueInner {read : Nat} (hChar : isHeaderChar ch = true ∧ ch ≠ CR ∧ ch ≠ LF) :
    (Locals.mk p n (some (.headerValue, front)) (.value read h none)).read ch =
      afterValue n (read + 1) (front ++ [ch]) h (valueSwitch p h ch (LOWER ch)) := by
  cases hSwitch : valueSwitch p h ch (LOWER ch) with
  | go r =>
      simp [Locals.read, step, headerValueLoop, Prog.emit, headerValue, hChar, hSwitch, Flow.locals,
        afterValue]
  | error p' e =>
      simp [Locals.read, step, headerValueLoop, Prog.emit, headerValue, hChar, hSwitch, Fields.fail,
        afterValue]
  | abort =>
      simp [Locals.read, step, headerValueLoop, Prog.emit, headerValue, hChar, hSwitch, afterValue]

theorem read_valueSkip {read k : Nat} (hChar : isHeaderChar ch = true ∧ ch ≠ CR ∧ ch ≠ LF) :
    (Locals.mk p n (some (.headerValue, front)) (.value read h (some k))).read ch =
      some (⟨p, n, some (.headerValue, front ++ [ch]), .value (read + 1) h (some (k + 1))⟩, []) := by
  simp [Locals.read, step, headerValueLoop, hChar, Prog.emit, Flow.locals]

theorem counted_value (marked : Option (Mark × ByteString)) (read : Nat) (skip : Option Nat) :
    (Locals.mk p n marked (.value read h skip)).counted = n + read := rfl

theorem Valuing.after {read : Nat} (hValuing : Valuing name value (ch :: rest) p h) :
    (∃ l h', afterValue n read front h (valueSwitch p h ch (LOWER ch)) = some (l, []) ∧
        InValue l front h' ∧ Valuing name value rest l.fields h' ∧ Alike p l.fields ∧
        l.counted = n + read) ∨
      afterValue n read front h (valueSwitch p h ch (LOWER ch)) = none ∧ ¬ Legible name value := by
  cases hValuing.step (LOWER ch) with
  | inl hGo =>
      obtain ⟨⟨p', h'⟩, hGoes, hRest⟩ := hGo
      have hAlike : Alike p p' := valueSwitch_alike hGoes
      rw [hGoes]
      exact .inl ⟨_, h', rfl, ⟨rfl, .inr ⟨_, _, rfl⟩⟩, hRest, hAlike, counted_value _ _ _⟩
  | inr hError =>
      obtain ⟨⟨p', e, hFails⟩, hIllegible⟩ := hError
      rw [hFails]
      exact .inr ⟨rfl, hIllegible⟩

/-- A further byte of a value. -/
theorem read_value {l : Locals} (hIn : InValue l front h) (hl : l.Regular)
    (hValuing : Valuing name value (ch :: rest) l.fields h)
    (hChar : isHeaderChar ch = true ∧ ch ≠ CR ∧ ch ≠ LF) (hRoom : l.counted ≤ httpMaxHeaderSize) :
    (∃ l' h', l.read ch = some (l', []) ∧ InValue l' (front ++ [ch]) h' ∧
        Valuing name value rest l'.fields h' ∧ Alike l.fields l'.fields ∧ l'.counted = l.counted + 1) ∨
      l.read ch = none ∧ ¬ Legible name value := by
  have hMark := hIn.mark
  have hLoop := hIn.loop
  have hFits := hl.loop
  obtain ⟨p, n, mark, loop⟩ := l
  simp only at hMark hLoop hFits hValuing
  subst hMark
  cases hLoop with
  | inl hOuter =>
      obtain ⟨rfl, hState, rfl⟩ := hOuter
      rw [counted_outer _ (by rw [hState]; rfl)] at hRoom ⊢
      rw [read_valueOuter hState hChar hRoom]
      exact hValuing.after
  | inr hInner =>
      obtain ⟨read, skip, rfl⟩ := hInner
      rw [counted_value]
      cases skip with
      | none =>
          rw [read_valueInner hChar]
          exact hValuing.after
      | some k =>
          -- only a value that nobody matches is skipped
          obtain ⟨rfl, -⟩ := hFits.2.2 k rfl
          rw [read_valueSkip hChar]
          cases hValuing with
          | length hName hState hGoes => cases hState
          | other hName hState =>
              exact .inl ⟨_, .general, rfl, ⟨rfl, .inr ⟨_, _, rfl⟩⟩, .other hName rfl, .refl p, rfl⟩

/-- The line end after a value. -/
theorem read_valueEnd {l : Locals} (hIn : InValue l front h) (hl : l.Regular)
    (hRoom : l.counted ≤ httpMaxHeaderSize) :
    l.read CR =
      some (⟨{ l.fields with state := .headerAlmostDone, headerState := h }, l.counted, none, .outer⟩,
        [.data 0 .headerValue front]) := by
  have hMark := hIn.mark
  have hLoop := hIn.loop
  have hFits := hl.loop
  obtain ⟨fields, nread, mark, loop⟩ := l
  simp only at hMark hLoop hFits
  subst hMark
  cases hLoop with
  | inl hOuter =>
      obtain ⟨rfl, hState, rfl⟩ := hOuter
      simp only [Locals.counted, Loop.pending, hState, State.parsingHeader, if_true] at hRoom ⊢
      have hCount : ¬ nread + 1 > httpMaxHeaderSize := by omega
      simp [Locals.read, Parser.step, hState, State.parsingHeader, Prog.emit, hCount, dispatch, headerValue,
        Fields.advance, Flow.locals, Mark.code]
  | inr hInner =>
      obtain ⟨read, skip, rfl⟩ := hInner
      simp only [Locals.counted, Loop.pending] at hRoom ⊢
      have hCount : ¬ nread + read > httpMaxHeaderSize := by omega
      cases skip with
      | none =>
          simp [Locals.read, Parser.step, headerValueLoop, Prog.emit, hCount, headerValue, Fields.advance,
            Flow.locals, Mark.code]
      | some k =>
          have hWindow : k < httpMaxHeaderSize := by
            obtain ⟨-, hPos, hSkip⟩ := hFits
            have hLe := (hSkip k rfl).2
            omega
          simp [Locals.read, Parser.step, headerValueLoop, hWindow, Prog.emit, hCount, headerValue,
            Fields.advance, Flow.locals, Mark.code]

theorem valueStartSwitch_state {p p' : Fields} {ch c : UInt8} (h : valueStartSwitch p ch c = .go p') :
    p'.state = p.state := by
  unfold valueStartSwitch at h
  repeat' split at h
  all_goals
    cases h
    try rfl

theorem snoc_cons (front : ByteString) (ch : UInt8) (rest : ByteString) :
    (front ++ [ch]) ++ rest = front ++ ch :: rest := by simp

/-- One byte of a line: the parser goes on, unless it is in a second length, or in one that it
does not read. -/
theorem LineAt.step {todo : ByteString} {said : List Callback} {l : Locals} (hLine : Line name value)
    (h : LineAt q name value todo said l) (hTodo : todo = ch :: rest) (hl : l.Regular)
    (hRoom : l.counted ≤ httpMaxHeaderSize) :
    (∃ l' cs, l.read ch = some (l', cs) ∧ LineAt q name value rest (said ++ cs) l' ∧
        l'.counted = l.counted + 1) ∨
      l.read ch = none ∧ ¬ Admissible q.flags.contentlength name value := by
  cases h with
  | start hState hAlike hFlag =>
      cases hName : name with
      | nil => exact absurd hName hLine.named
      | cons c cs =>
          have hToken := hLine.token c (by rw [hName]; exact List.mem_cons_self)
          rw [hName] at hTodo
          obtain ⟨rfl, rfl⟩ := List.cons.inj hTodo
          rw [counted_outer _ (by rw [hState]; rfl)] at hRoom ⊢
          refine .inl ⟨_, [], read_nameStart hState hToken hRoom, ?_, counted_outer _ rfl⟩
          have hNaming := naming_first hFlag (Parser.token c)
          rw [token_eq_toLower hToken] at hNaming ⊢
          exact .name rfl rfl (.inl ⟨rfl, rfl⟩) { hAlike with } hNaming
  | @name front rest₀ _ hName hMark hLoop hAlike hNaming =>
      cases rest₀ with
      | nil =>
          obtain ⟨rfl, rfl⟩ := List.cons.inj hTodo
          rw [List.append_nil] at hName
          subst hName
          have hColon : LineAt q front value ((SP :: value) ++ [CR, LF]) [.data 0 .headerField front]
              ⟨l.fields.updateState .headerValueDiscardWs, l.counted, none, .outer⟩ :=
            .colon (.inl rfl) rfl { hAlike with } hNaming.contentLength_iff hNaming.once
          exact .inl ⟨_, _, read_colon hMark hLoop hRoom, hColon, counted_outer _ rfl⟩
      | cons c cs =>
          obtain ⟨rfl, rfl⟩ := List.cons.inj hTodo
          have hToken := hLine.token c (by rw [← hName]; simp)
          cases hNaming.step (Parser.token c) (ne_lineEnd_of_token hToken).2.2 with
          | inl hGo =>
              obtain ⟨p', hGoes, hNext⟩ := hGo
              obtain ⟨l', hRead, hMark', hLoop', hFields, hCounted⟩ :=
                read_name hMark hLoop hToken hGoes hRoom
              refine .inl ⟨l', [], hRead, ?_, hCounted⟩
              have hAlike' : Alike q l'.fields := hFields ▸ hAlike.trans (fieldSwitch_alike hGoes)
              have hNaming' : Naming q.flags.contentlength (lower (front ++ [c])) l'.fields := by
                rw [lower_snoc hToken, hFields]
                exact hNext
              exact .name ((snoc_cons front c cs).trans hName) hMark' (.inr hLoop') hAlike' hNaming'
          | inr hRepeats =>
              obtain ⟨⟨p', e, hFails⟩, hStated, hWhole⟩ := hRepeats
              refine .inr ⟨read_nameError hMark hLoop hToken hFails, fun hAdmissible => ?_⟩
              have hLong : hfContentLen <+: lower name := by
                rw [← hName, ← snoc_cons, lower_append, lower_snoc hToken, hWhole]
                exact List.prefix_append _ _
              rw [hAdmissible.once hLong] at hStated
              cases hStated
  | @colon p n rest₀ hRest hState hAlike hLength hOnce =>
      have hParsing : p.state.parsingHeader = true := by
        rw [hState]
        rfl
      rw [counted_outer _ hParsing] at hRoom ⊢
      cases hRest with
      | inl hSpace =>
          subst hSpace
          obtain ⟨rfl, rfl⟩ := List.cons.inj hTodo
          exact .inl ⟨_, [], read_space hState hRoom, .colon (.inr rfl) hState hAlike hLength hOnce,
            counted_outer _ hParsing⟩
      | inr hValue =>
          subst hValue
          cases hValue : rest₀ with
          | nil =>
              rw [hValue] at hTodo
              obtain ⟨rfl, rfl⟩ := List.cons.inj hTodo
              exact .inl ⟨_, [], read_emptyEnd hState hRoom, .lineFeedEmpty rfl { hAlike with } rfl hOnce,
                counted_outer _ rfl⟩
          | cons c cs =>
              rw [hValue] at hTodo
              obtain ⟨rfl, rfl⟩ := List.cons.inj hTodo
              have hChar := hLine.chars c (by rw [hValue]; exact List.mem_cons_self)
              have hBlank := hLine.start c (by rw [hValue]; rfl)
              rw [read_valueStart hState hBlank hChar.2 hRoom]
              have hStart : ({ p with state := .headerValue, index := 0 } : Fields).headerState =
                  .contentLength ↔ lower name = hfContentLen := hLength
              cases valuing_start hStart rfl (LOWER c) with
              | inl hGo =>
                  obtain ⟨p', hGoes, hValuing⟩ := hGo
                  have hAlike' : Alike q p' :=
                    Alike.trans (q := { p with state := .headerValue, index := 0 }) { hAlike with }
                      (valueStartSwitch_alike hGoes)
                  have hState' : p'.state = .headerValue := valueStartSwitch_state hGoes
                  rw [hGoes]
                  refine .inl ⟨_, [], rfl, ?_, counted_outer _ (by rw [hState']; rfl)⟩
                  exact .value rfl ⟨rfl, .inl ⟨rfl, hState', rfl⟩⟩ hAlike' hValuing hOnce
              | inr hError =>
                  obtain ⟨⟨p', e, hFails⟩, hIllegible⟩ := hError
                  rw [hFails]
                  exact .inr ⟨rfl, fun hAdmissible => hIllegible hAdmissible.legible⟩
  | @value front rest₀ _ h' hValue hIn hAlike hValuing hOnce =>
      cases rest₀ with
      | nil =>
          obtain ⟨rfl, rfl⟩ := List.cons.inj hTodo
          rw [List.append_nil] at hValue
          subst hValue
          exact .inl ⟨_, _, read_valueEnd hIn hl hRoom, .lineFeed rfl { hAlike with }
            ⟨hOnce, hValuing.legible⟩, counted_outer _ rfl⟩
      | cons c cs =>
          obtain ⟨rfl, rfl⟩ := List.cons.inj hTodo
          have hChar := hLine.chars c (by rw [← hValue]; simp)
          cases read_value hIn hl hValuing hChar hRoom with
          | inl hGo =>
              obtain ⟨l', h'', hRead, hIn', hValuing', hAlike', hCounted⟩ := hGo
              exact .inl ⟨l', [], hRead,
                .value ((snoc_cons front c cs).trans hValue) hIn' (hAlike.trans hAlike') hValuing' hOnce, hCounted⟩
          | inr hFails => exact .inr ⟨hFails.1, fun hAdmissible => hFails.2 hAdmissible.legible⟩
  | lineFeed hState hAlike hAdmissible =>
      obtain ⟨rfl, rfl⟩ := List.cons.inj hTodo
      rw [counted_outer _ (by rw [hState]; rfl)] at hRoom ⊢
      exact .inl ⟨_, [], read_lineFeed hState hRoom, .finished rfl { hAlike with } hAdmissible, counted_outer _ rfl⟩
  | lineFeedEmpty hState hAlike hValue hOnce =>
      obtain ⟨rfl, rfl⟩ := List.cons.inj hTodo
      rw [counted_outer _ (by rw [hState]; rfl)] at hRoom ⊢
      exact .inl ⟨_, [], read_lineFeedEmpty hState hRoom, .finishedEmpty rfl { hAlike with } hValue hOnce,
        counted_outer _ rfl⟩
  | finished => cases hTodo
  | finishedEmpty => cases hTodo

/-- A line whose bytes fit is read. -/
theorem LineAt.reads {todo : ByteString} {said : List Callback} {l : Locals} (hLine : Line name value)
    (hAdmissible : Admissible q.flags.contentlength name value) (h : LineAt q name value todo said l)
    (hl : l.Regular) (hRoom : l.counted + todo.length ≤ httpMaxHeaderSize + 1) :
    ∃ l' cs, l.reads todo = some (l', cs) ∧ LineAt q name value [] (said ++ cs) l' ∧ l'.Regular ∧
      l'.counted = l.counted + todo.length := by
  induction todo generalizing said l with
  | nil =>
      refine ⟨l, [], rfl, ?_, hl, rfl⟩
      rw [List.append_nil]
      exact h
  | cons ch rest ih =>
      rw [List.length_cons] at hRoom
      cases h.step hLine rfl hl (by omega) with
      | inl hGo =>
          obtain ⟨lt, out, hRead, hNext, hCounted⟩ := hGo
          have hlt := read_regular hl hRead
          obtain ⟨l', cs, hReads, hOver, hl', hTotal⟩ := ih hNext hlt (by omega)
          refine ⟨l', out ++ cs, Locals.reads_cons hRead hReads, ?_, hl', ?_⟩
          · rw [← List.append_assoc]
            exact hOver
          · rw [hTotal, hCounted, List.length_cons]
            omega
      | inr hFails => exact absurd hAdmissible hFails.2

/-- A byte that has been read has fitted, unless the count is overdrawn for good. -/
theorem counted_le_of_read {l l' l'' : Locals} {cs cs' : List Callback}
    (hParsing : l.fields.state.parsingHeader = true) (hRead : l.read ch = some (l', cs))
    (hReads : l'.reads rest = some (l'', cs')) (hNot : ¬ l''.Overdrawn) :
    l.counted ≤ httpMaxHeaderSize := by
  by_contra hOver
  by_cases hOuter : l.loop = .outer
  · exact read_over hOuter hParsing (Nat.lt_of_not_le hOver) hRead
  · have hDrawn : l.Overdrawn := ⟨hOuter, Nat.lt_of_not_le hOver⟩
    exact hNot (reads_overdrawn (read_overdrawn hDrawn hRead) hReads)

theorem LineAt.parsing {todo : ByteString} {said : List Callback} {l : Locals}
    (h : LineAt q name value todo said l) (hl : l.Regular) : l.fields.state.parsingHeader = true := by
  have hState : l.fields.state = .headerField ∨ l.fields.state = .headerValue ∨
      l.fields.state.parsingHeader = true := by
    have hFits := hl.loop
    cases h with
    | start hState => exact .inr (.inr (by rw [hState]; rfl))
    | name hName hMark hLoop =>
        cases hLoop with
        | inl hOuter => exact .inl hOuter.2
        | inr hInner =>
            obtain ⟨read, hRead⟩ := hInner
            rw [hRead] at hFits
            exact .inl hFits.1
    | colon hRest hState => exact .inr (.inr (by rw [hState]; rfl))
    | value hValue hIn =>
        cases hIn.loop with
        | inl hOuter => exact .inr (.inl hOuter.2.1)
        | inr hInner =>
            obtain ⟨read, skip, hRead⟩ := hInner
            rw [hRead] at hFits
            exact .inr (.inl hFits.1)
    | lineFeed hState => exact .inr (.inr (by rw [hState]; rfl))
    | lineFeedEmpty hState => exact .inr (.inr (by rw [hState]; rfl))
    | finished hState => exact .inr (.inr (by rw [hState]; rfl))
    | finishedEmpty hState => exact .inr (.inr (by rw [hState]; rfl))
  cases hState with
  | inl hField => rw [hField]; rfl
  | inr hRest =>
      cases hRest with
      | inl hValue => rw [hValue]; rfl
      | inr hParsing => exact hParsing

/-- Bytes that are read to the end, without the count being overdrawn, have fitted. -/
theorem LineAt.forced {todo after : ByteString} {said : List Callback} {l l'' : Locals} {cs : List Callback}
    (hLine : Line name value) (h : LineAt q name value todo said l) (hl : l.Regular)
    (hReads : l.reads (todo ++ after) = some (l'', cs)) (hNot : ¬ l''.Overdrawn) :
    ∃ l' out out', l'.reads after = some (l'', out') ∧ cs = out ++ out' ∧
      LineAt q name value [] (said ++ out) l' ∧ l'.Regular ∧ l'.counted = l.counted + todo.length := by
  induction todo generalizing said l cs with
  | nil =>
      refine ⟨l, [], cs, hReads, rfl, ?_, hl, rfl⟩
      rw [List.append_nil]
      exact h
  | cons ch rest ih =>
      obtain ⟨lt, out₁, out₂, hRead, hRest, rfl⟩ := Transducer.reads_cons_eq_some.mp hReads
      have hRoom := counted_le_of_read (h.parsing hl) hRead hRest hNot
      cases h.step hLine rfl hl hRoom with
      | inl hGo =>
          obtain ⟨lt', out, hRead', hNext, hCounted⟩ := hGo
          rw [hRead] at hRead'
          cases hRead'
          obtain ⟨l', out', last, hAfter, rfl, hOver, hl', hTotal⟩ := ih hNext (read_regular hl hRead) hRest
          refine ⟨l', out₁ ++ out', last, hAfter, (List.append_assoc _ _ _).symm, ?_, hl', ?_⟩
          · rw [← List.append_assoc]
            exact hOver
          · rw [hTotal, hCounted, List.length_cons]
            omega
      | inr hFails =>
          rw [hFails.1] at hRead
          cases hRead

/-! ### After a line -/

/-- Where the parser is after a line. -/
theorem LineAt.over_cases {todo : ByteString} {said : List Callback} {l : Locals}
    (h : LineAt q name value todo said l) (hTodo : todo = []) :
    ∃ p n, l = ⟨p, n, none, .outer⟩ ∧ Alike q p ∧
      (p.state = .headerValueLws ∧ said = [.data 0 .headerField name, .data 0 .headerValue value] ∨
        p.state = .headerValueDiscardLws ∧ value = [] ∧ said = [.data 0 .headerField name]) := by
  cases h with
  | start => simp [lineBytes] at hTodo
  | name => simp at hTodo
  | colon => simp at hTodo
  | value => simp at hTodo
  | lineFeed => cases hTodo
  | lineFeedEmpty => cases hTodo
  | @finished p n hState hAlike => exact ⟨p, n, rfl, hAlike, .inl ⟨hState, rfl⟩⟩
  | @finishedEmpty p n hState hAlike hValue => exact ⟨p, n, rfl, hAlike, .inr ⟨hState, hValue, rfl⟩⟩

theorem LineAt.admissible {todo : ByteString} {said : List Callback} {l : Locals}
    (h : LineAt q name value todo said l) (hTodo : todo = []) : Admissible q.flags.contentlength name value := by
  cases h with
  | start => simp [lineBytes] at hTodo
  | name => simp at hTodo
  | colon => simp at hTodo
  | value => simp at hTodo
  | lineFeed => cases hTodo
  | lineFeedEmpty => cases hTodo
  | finished _ _ hAdmissible => exact hAdmissible
  | finishedEmpty _ _ hValue hOnce => exact ⟨hOnce, fun _ => by rw [hValue]; rfl⟩

theorem read_lws (hState : p.state = .headerValueLws) (hBlank : ch ≠ SP ∧ ch ≠ HT) :
    (Locals.mk p n none .outer).read ch =
      (Locals.mk ((finishHeader p).updateState .headerFieldStart) n none .outer).read ch := by
  simp [Locals.read, step, hState, State.parsingHeader, Prog.emit, dispatch, headerValueLws, hBlank,
    Fields.updateState]

theorem read_discardLws (hState : p.state = .headerValueDiscardLws) (hBlank : ch ≠ SP ∧ ch ≠ HT) :
    (Locals.mk p n none .outer).read ch =
      ((Locals.mk ((finishHeader p).updateState .headerFieldStart) n none .outer).read ch).map
        fun r => (r.1, .data 0 .headerValue [] :: r.2) := by
  by_cases hCount : n + 1 > httpMaxHeaderSize
  · simp [Locals.read, step, hState, State.parsingHeader, Prog.emit, hCount, Fields.updateState]
  · cases hEmit : (headerFieldStart ((finishHeader p).updateState .headerFieldStart) ch).emit ch
        (n + 1) none with
    | none =>
        simp only [Fields.updateState] at hEmit
        simp [Locals.read, step, hState, State.parsingHeader, Prog.emit, hCount, dispatch,
          headerValueDiscardLws, hBlank, Fields.updateState, hEmit]
    | some r =>
        simp only [Fields.updateState] at hEmit
        simp [Locals.read, step, hState, State.parsingHeader, Prog.emit, hCount, dispatch,
          headerValueDiscardLws, hBlank, Fields.updateState, hEmit, Emission.prepend, Mark.code]

/-- The byte after a line is the first of the next, for which the parser is ready once it
has called for the whole line. -/
theorem LineAt.next {said : List Callback} {l : Locals} (h : LineAt q name value [] said l)
    (hBlank : ch ≠ SP ∧ ch ≠ HT) :
    ∃ p n pre, l.counted = n + 1 ∧ p.state = .headerFieldStart ∧ Alike q p ∧
      said ++ pre = [.data 0 .headerField name, .data 0 .headerValue value] ∧
      l.read ch = ((Locals.mk p n none .outer).read ch).map fun r => (r.1, pre ++ r.2) := by
  obtain ⟨p, n, rfl, hAlike, hBoth⟩ := h.over_cases rfl
  have hFinish := finishHeader_alike p
  refine ⟨(finishHeader p).updateState .headerFieldStart, n, ?_⟩
  cases hBoth with
  | inl hFull =>
      obtain ⟨hState, rfl⟩ := hFull
      refine ⟨[], counted_outer _ (by rw [hState]; rfl), rfl, hAlike.trans { hFinish with }, rfl, ?_⟩
      rw [read_lws hState hBlank]
      exact Option.map_id'.symm
  | inr hEmpty =>
      obtain ⟨hState, rfl, rfl⟩ := hEmpty
      exact ⟨[.data 0 .headerValue []], counted_outer _ (by rw [hState]; rfl), rfl,
        hAlike.trans { hFinish with }, rfl, read_discardLws hState hBlank⟩

/-- A second last chunk is no header line: the parser stops at its carriage return. -/
theorem reads_zeroLine (hState : p.state = .headerFieldStart) (rest : ByteString) :
    (Locals.mk p n none .outer).reads ('0'.toUInt8 :: CR :: rest) = none := by
  have hFails : ∀ r, (Locals.mk p n none .outer).reads ('0'.toUInt8 :: CR :: rest) ≠ some r := by
    rintro ⟨l, cs⟩ hReads
    obtain ⟨l₁, out₁, out₂, hZero, hRest, -⟩ := Transducer.reads_cons_eq_some.mp hReads
    obtain ⟨l₂, out₃, out₄, hCR, -⟩ := Transducer.reads_cons_eq_some.mp hRest
    by_cases hRoom : n + 1 ≤ httpMaxHeaderSize
    · rw [read_nameStart hState (by decide) hRoom] at hZero
      cases hZero
      have hToken : Parser.token CR = 0 := by decide
      have hColon : CR ≠ ':'.toUInt8 := by decide
      simp [Locals.read, Parser.step, State.parsingHeader, Prog.emit, dispatch, headerField, hToken, hColon,
        Fields.fail] at hCR
    · have hOver : (Locals.mk p n none .outer).counted > httpMaxHeaderSize := by
        rw [counted_outer _ (by rw [hState]; rfl)]
        omega
      exact read_over rfl (by rw [hState]; rfl) hOver hZero
  cases hReads : (Locals.mk p n none .outer).reads ('0'.toUInt8 :: CR :: rest) with
  | none => rfl
  | some r => exact absurd hReads (hFails r)

end Doormat.Http
