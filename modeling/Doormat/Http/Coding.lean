import Doormat.Http.LineEffect

/-! The coding that the parser knows. It knows the name by the letters of `transfer-encoding`, in
whatever case, and the value by those of `chunked`, behind which there may be spaces. -/
namespace Doormat.Http

open Bytes Doormat.Parser

variable {p q r : Fields} {h : HeaderState} {name value read rest : ByteString} {ch c : UInt8}

/-! ### The name -/

/-- The states of a name that is not on the way to `transfer-encoding`. -/
def offCoding : HeaderState → Bool
  | .matchingTransferEncoding | .transferEncoding | .transferEncodingChunked => false
  | _ => true

/-- The parser after the characters `read` of a name, on the way to `transfer-encoding` or off it. -/
inductive NamesCoding (read : ByteString) (q : Fields) : Prop
  | onTrack (hPrefix : read <+: hfTransferEncoding) (hIndex : q.index + 1 = read.length)
      (hState : q.headerState =
        if read.length = 17 then .transferEncoding else .matchingTransferEncoding)
  | off (hNot : ¬ read <+: hfTransferEncoding) (hState : offCoding q.headerState = true)

theorem length_hfTransferEncoding : hfTransferEncoding.length = 17 := by decide

theorem NamesCoding.state_iff (h : NamesCoding read q) :
    q.headerState = .transferEncoding ↔ read = hfTransferEncoding := by
  cases h with
  | onTrack hPrefix hIndex hState =>
      rw [hState]
      constructor
      · intro hWhole
        have hLong : read.length = 17 := by
          by_contra hShort
          rw [if_neg hShort] at hWhole
          cases hWhole
        exact hPrefix.eq_of_length (hLong.trans length_hfTransferEncoding.symm)
      · rintro rfl
        rw [if_pos length_hfTransferEncoding]
  | off hNot hState =>
      constructor
      · intro hWhole
        rw [hWhole] at hState
        cases hState
      · rintro rfl
        exact absurd (List.prefix_refl _) hNot

theorem namesCoding_first (p : Fields) (c : UInt8) :
    NamesCoding [c] { p with state := .headerField, index := 0, headerState := firstHeaderState c } := by
  by_cases hc : c = 't'.toUInt8
  · subst hc
    exact .onTrack (by decide) rfl rfl
  · refine .off ?_ ?_
    · intro hPrefix
      have hFirst := (prefix_snoc (List.nil_prefix (l := hfTransferEncoding)) c).mp hPrefix
      have hHead : hfTransferEncoding[0]? = some 't'.toUInt8 := by decide
      rw [List.length_nil, hHead] at hFirst
      exact hc (Option.some.inj hFirst).symm
    · simp only [firstHeaderState, hc, if_false]
      repeat' split
      all_goals rfl

theorem matchNext_offCoding (p : Fields) (c : UInt8) (constant : ByteString) {done h : HeaderState}
    (hDone : offCoding done = true) (hStay : offCoding h = true) :
    offCoding (matchNext p c constant done .general h).2 = true := by
  unfold matchNext
  dsimp only
  split
  · rfl
  split
  · exact hDone
  · exact hStay

/-- Off the track the parser stays off. -/
theorem fieldSwitch_offCoding (hState : offCoding p.headerState = true) (h : fieldSwitch p ch c = .go q) :
    offCoding q.headerState = true := by
  have hName : ∀ (constant : ByteString) {done : HeaderState}, offCoding done = true →
      offCoding (matchNext p c constant done .general p.headerState).2 = true :=
    fun constant _ hDone => matchNext_offCoding p c constant hDone hState
  unfold fieldSwitch at h
  split at h
  case h_5 => cases h; exact hName _ rfl
  case h_6 => cases h; exact hName _ rfl
  case h_9 => cases h; exact hName _ rfl
  case h_7 =>
    dsimp only at h
    split at h
    · split at h
      · cases h
      · cases h
        exact hName _ rfl
    · cases h
      exact hName _ rfl
  case h_8 hMatching | h_12 hMatching =>
    rw [hMatching] at hState
    cases hState
  case h_1 => cases h; exact hState
  case h_2 | h_3 | h_4 =>
    cases h
    dsimp only
    repeat' split
    all_goals rfl
  case h_10 | h_11 | h_13 =>
    split at h
    · cases h
      rfl
    · cases h
      exact hState
  case h_14 => cases h

theorem NamesCoding.step (hNames : NamesCoding read p) (hSpace : ch ≠ SP) (h : fieldSwitch p ch c = .go q) :
    NamesCoding (read ++ [c]) q := by
  cases hNames with
  | off hNot hState => exact .off (not_prefix_snoc hNot c) (fieldSwitch_offCoding hState h)
  | onTrack hPrefix hIndex hState =>
      by_cases hLong : read.length = 17
      · -- the name goes on behind `transfer-encoding`
        have hWhole := hPrefix.eq_of_length (hLong.trans length_hfTransferEncoding.symm)
        rw [if_pos hLong] at hState
        have hGoes : fieldSwitch p ch c = .go { p with headerState := .general } := by
          simp [fieldSwitch, hState, hSpace]
        rw [hGoes] at h
        cases h
        refine .off ?_ rfl
        rw [hWhole, prefix_snoc (List.prefix_refl _)]
        simp
      · rw [if_neg hLong] at hState
        have hGoes : fieldSwitch p ch c =
            .go { (matchNext p c hfTransferEncoding .transferEncoding .general .matchingTransferEncoding).1 with
              headerState :=
                (matchNext p c hfTransferEncoding .transferEncoding .general .matchingTransferEncoding).2 } := by
          simp only [fieldSwitch, hState]
          rfl
        rw [hGoes] at h
        by_cases hc : hfTransferEncoding[read.length]? = some c
        · have hLonger := (prefix_snoc hPrefix c).mpr hc
          by_cases hLast : read.length + 1 = hfTransferEncoding.length
          · rw [matchNext_done hIndex hc hLast] at h
            cases h
            refine .onTrack hLonger (by simp [hIndex]) ?_
            rw [List.length_append, List.length_singleton, hLast, if_pos length_hfTransferEncoding]
          · rw [matchNext_more hIndex hc hLast] at h
            cases h
            refine .onTrack hLonger (by simp [hIndex]) ?_
            rw [length_hfTransferEncoding] at hLast
            rw [List.length_append, List.length_singleton, if_neg hLast]
        · rw [matchNext_miss hIndex hc] at h
          cases h
          exact .off (fun hLonger => hc ((prefix_snoc hPrefix c).mp hLonger)) rfl

theorem nameRun_coding (hNames : NamesCoding read p) (hTokens : ∀ c ∈ rest, token c ≠ 0)
    (hRun : nameRun p rest = some q) : NamesCoding (read ++ lower rest) q := by
  induction rest generalizing read p with
  | nil =>
      cases hRun
      rw [lower_nil, List.append_nil]
      exact hNames
  | cons ch rest ih =>
      have hToken := hTokens ch List.mem_cons_self
      obtain ⟨p', hGoes, hRest⟩ := nameRun_cons_eq_some hRun
      have hSplit : read ++ lower (ch :: rest) = (read ++ [token ch]) ++ lower rest := by
        rw [token_eq_toLower hToken]
        simp [lower]
      rw [hSplit]
      exact ih (hNames.step (ne_lineEnd_of_token hToken).2.2 hGoes) (fun c hc => hTokens c (List.mem_cons_of_mem ch hc))
        hRest

theorem wholeName_names (hTokens : ∀ c ∈ name, token c ≠ 0) (hRun : wholeName p name = some q) :
    NamesCoding (lower name) q := by
  cases name with
  | nil => cases hRun
  | cons ch rest =>
      have hSplit : lower (ch :: rest) = [token ch] ++ lower rest := by
        rw [token_eq_toLower (hTokens ch List.mem_cons_self)]
        rfl
      rw [hSplit]
      exact nameRun_coding (namesCoding_first p (token ch)) (fun c hc => hTokens c (List.mem_cons_of_mem ch hc)) hRun

/-! ### The value -/

/-- The coding that the parser knows. -/
def codingWord : ByteString := ofString "chunked"

/-- The value is `chunked`, in whatever case, and spaces. -/
def SaysChunked (value : ByteString) : Prop :=
  lower value = codingWord ++ List.replicate (value.length - codingWord.length) SP

instance (value : ByteString) : Decidable (SaysChunked value) :=
  inferInstanceAs (Decidable (lower value = codingWord ++ List.replicate (value.length - codingWord.length) SP))

/-- A front of such a value. -/
def CodingFront (read : ByteString) : Prop := read <+: codingWord ∨ ∃ n, read = codingWord ++ List.replicate n SP

/-- The parser after the characters `read` of the value of a coding, with `h` matched so far. -/
inductive ReadsCoding (read : ByteString) (p : Fields) (h : HeaderState) : Prop
  | onTrack (hPrefix : read <+: codingWord) (hShort : read.length < 7) (hIndex : p.index + 1 = read.length)
      (hState : h = .matchingTransferEncodingChunked)
  | whole (n : Nat) (hRead : read = codingWord ++ List.replicate n SP) (hState : h = .transferEncodingChunked)
  | off (hNot : ¬ CodingFront read) (hState : h = .general)

theorem length_codingWord : codingWord.length = 7 := by decide

theorem saysChunked_iff : SaysChunked value ↔ ∃ n, lower value = codingWord ++ List.replicate n SP := by
  refine ⟨fun h => ⟨_, h⟩, ?_⟩
  rintro ⟨n, hValue⟩
  have hLength : value.length = codingWord.length + n := by
    rw [← List.length_map (f := toLower), ← lower, hValue, List.length_append, List.length_replicate]
  rw [SaysChunked, hLength, Nat.add_sub_cancel_left]
  exact hValue

theorem CodingFront.of_snoc (hFront : CodingFront (read ++ [c])) : CodingFront read := by
  rcases hFront with hPrefix | ⟨n, hWhole⟩
  · exact .inl ((List.prefix_append read [c]).trans hPrefix)
  · cases n with
    | zero =>
        rw [List.replicate_zero, List.append_nil] at hWhole
        exact .inl (hWhole ▸ List.prefix_append read [c])
    | succ n =>
        rw [List.replicate_succ', ← List.append_assoc] at hWhole
        exact .inr ⟨n, (List.append_inj' hWhole rfl).1⟩

theorem ReadsCoding.state_iff (hReads : ReadsCoding read p h) :
    h = .transferEncodingChunked ↔ ∃ n, read = codingWord ++ List.replicate n SP := by
  cases hReads with
  | onTrack hPrefix hShort hIndex hState =>
      subst hState
      constructor
      · intro hWhole
        cases hWhole
      · rintro ⟨n, rfl⟩
        rw [List.length_append, length_codingWord] at hShort
        omega
  | whole n hRead hState => exact ⟨fun _ => ⟨n, hRead⟩, fun _ => hState⟩
  | off hNot hState =>
      subst hState
      constructor
      · intro hWhole
        cases hWhole
      · exact fun hWhole => absurd (.inr hWhole) hNot

/-- Of the letters of the coding the parser does not mind the case. -/
theorem LOWER_eq_iff (hc : c ∈ codingWord) : LOWER ch = c ↔ toLower ch = c := by
  have hAll : ∀ c ∈ codingWord, ∀ ch, LOWER ch = c ↔ toLower ch = c := by
    intro c hc
    apply forall_byte (P := fun ch => LOWER ch = c ↔ toLower ch = c)
    revert c
    decide +kernel
  exact hAll c hc ch

theorem toLower_eq_SP_iff : toLower ch = SP ↔ ch = SP :=
  forall_byte (P := fun ch => toLower ch = SP ↔ ch = SP) (by decide +kernel) ch

theorem ReadsCoding.step {s : Fields × HeaderState} (hReads : ReadsCoding read p h)
    (hGoes : valueSwitch p h ch (LOWER ch) = .go s) : ReadsCoding (read ++ [toLower ch]) s.1 s.2 := by
  cases hReads with
  | off hNot hState =>
      subst hState
      cases hGoes
      exact .off (fun hFront => hNot hFront.of_snoc) rfl
  | whole n hRead hState =>
      subst hState
      by_cases hSpace : ch = SP
      · subst hSpace
        cases hGoes
        refine .whole (n + 1) ?_ rfl
        rw [hRead, List.replicate_succ', List.append_assoc]
        rfl
      · have hGeneral : valueSwitch p .transferEncodingChunked ch (LOWER ch) = .go (p, .general) := by
          simp [valueSwitch, hSpace]
        rw [hGeneral] at hGoes
        cases hGoes
        refine .off ?_ rfl
        rintro (hPrefix | ⟨m, hWhole⟩)
        · have hLength := hPrefix.length_le
          rw [hRead] at hLength
          simp only [List.length_append, length_codingWord, List.length_singleton] at hLength
          omega
        · have hLonger : m = n + 1 := by
            have hLength := congrArg List.length hWhole
            simp only [hRead, List.length_append, List.length_replicate, List.length_singleton] at hLength
            omega
          rw [hLonger, List.replicate_succ', ← List.append_assoc] at hWhole
          have hLast := (List.append_inj' hWhole rfl).2
          exact hSpace (toLower_eq_SP_iff.mp (List.cons.inj hLast).1)
  | onTrack hPrefix hShort hIndex hState =>
      subst hState
      have hMatch : valueSwitch p .matchingTransferEncodingChunked ch (LOWER ch) =
          .go (matchNext p (LOWER ch) codingWord .transferEncodingChunked .general .matchingTransferEncodingChunked) := rfl
      rw [hMatch] at hGoes
      have hRoom : read.length < codingWord.length := by
        rw [length_codingWord]
        exact hShort
      have hSame : codingWord[read.length]? = some (LOWER ch) ↔ codingWord[read.length]? = some (toLower ch) := by
        rw [List.getElem?_eq_getElem hRoom]
        simp only [Option.some.injEq, eq_comm (a := codingWord[read.length])]
        exact LOWER_eq_iff (List.getElem_mem hRoom)
      by_cases hc : codingWord[read.length]? = some (LOWER ch)
      · have hLonger := (prefix_snoc hPrefix (toLower ch)).mpr (hSame.mp hc)
        by_cases hLast : read.length + 1 = codingWord.length
        · rw [matchNext_done hIndex hc hLast] at hGoes
          cases hGoes
          refine .whole 0 ?_ rfl
          rw [List.replicate_zero, List.append_nil]
          exact hLonger.eq_of_length (by simpa using hLast)
        · rw [matchNext_more hIndex hc hLast] at hGoes
          cases hGoes
          refine .onTrack hLonger ?_ (by simp [hIndex]) rfl
          rw [length_codingWord] at hLast
          rw [List.length_append, List.length_singleton]
          omega
      · rw [matchNext_miss hIndex hc] at hGoes
        cases hGoes
        refine .off ?_ rfl
        have hNot : ¬ read ++ [toLower ch] <+: codingWord :=
          fun hLonger => hc (hSame.mpr ((prefix_snoc hPrefix _).mp hLonger))
        rintro (hLonger | ⟨n, hWhole⟩)
        · exact hNot hLonger
        · have hLength := congrArg List.length hWhole
          simp only [List.length_append, length_codingWord, List.length_replicate, List.length_singleton] at hLength
          have hZero : n = 0 := by omega
          rw [hZero, List.replicate_zero, List.append_nil] at hWhole
          exact hNot (hWhole ▸ List.prefix_refl _)

theorem readsCoding_start {p' : Fields} (hState : p.headerState = .transferEncoding)
    (hGoes : valueStartSwitch { p with state := .headerValue, index := 0 } ch (LOWER ch) = .go p') :
    ReadsCoding [toLower ch] p' p'.headerState := by
  have hSame : LOWER ch = 'c'.toUInt8 ↔ toLower ch = 'c'.toUInt8 := LOWER_eq_iff (by decide)
  simp only [valueStartSwitch, hState, hSame] at hGoes
  cases hGoes
  by_cases hc : toLower ch = 'c'.toUInt8
  · rw [if_pos hc, hc]
    exact .onTrack (by decide) (by decide) rfl rfl
  · rw [if_neg hc]
    refine .off ?_ rfl
    rintro (hPrefix | ⟨n, hWhole⟩)
    · have hFirst := (prefix_snoc (List.nil_prefix (l := codingWord)) (toLower ch)).mp hPrefix
      have hHead : codingWord[0]? = some 'c'.toUInt8 := by decide
      rw [List.length_nil, hHead] at hFirst
      exact hc (Option.some.inj hFirst).symm
    · have hLength := congrArg List.length hWhole
      rw [List.length_append, length_codingWord, List.length_singleton] at hLength
      omega

theorem valueRun_reads {s : Fields × HeaderState} (hReads : ReadsCoding read p h)
    (hRun : valueRun p h rest = some s) : ReadsCoding (read ++ lower rest) s.1 s.2 := by
  induction rest generalizing read p h with
  | nil =>
      cases hRun
      rw [lower_nil, List.append_nil]
      exact hReads
  | cons ch rest ih =>
      obtain ⟨s', hGoes, hRest⟩ := valueRun_cons_eq_some hRun
      have hSplit : read ++ lower (ch :: rest) = (read ++ [toLower ch]) ++ lower rest := by simp [lower]
      rw [hSplit]
      exact ih (hReads.step hGoes) hRest

/-- The states within the value of another header. -/
def uncoded : HeaderState → Bool
  | .transferEncoding | .matchingTransferEncodingChunked | .transferEncodingChunked => false
  | _ => true

theorem valueStartSwitch_uncoded (hState : p.headerState ≠ .transferEncoding)
    (hGoes : valueStartSwitch p ch c = .go q) : uncoded q.headerState = true := by
  unfold valueStartSwitch at hGoes
  split at hGoes
  case h_1 =>
    cases hGoes
    rfl
  case h_2 hCoding => exact absurd hCoding hState
  case h_3 hLength =>
    split at hGoes
    · cases hGoes
    · cases hGoes
      rw [hLength]
      rfl
  case h_4 =>
    cases hGoes
    dsimp only
    repeat' split
    all_goals rfl
  case h_5 hList =>
    cases hGoes
    rw [hList]
    rfl
  case h_6 =>
    cases hGoes
    rfl

theorem matchNext_uncoded (p : Fields) (c : UInt8) (constant : ByteString) {done other : HeaderState}
    (hDone : uncoded done = true) (hOther : uncoded other = true) (hStay : uncoded h = true) :
    uncoded (matchNext p c constant done other h).2 = true := by
  unfold matchNext
  dsimp only
  split
  · exact hOther
  split
  · exact hDone
  · exact hStay

theorem valueSwitch_uncoded {s : Fields × HeaderState} (hState : uncoded h = true)
    (hGoes : valueSwitch p h ch c = .go s) : uncoded s.2 = true := by
  unfold valueSwitch at hGoes
  split at hGoes
  all_goals
    repeat' split at hGoes
  all_goals first
    | cases hGoes
      exact matchNext_uncoded p c _ rfl rfl hState
    | cases hGoes
      rfl
    | cases hGoes
      exact hState
    | exact absurd hState (by decide)
    | cases hGoes

theorem valueRun_uncoded {s : Fields × HeaderState} (hState : uncoded h = true) (hRun : valueRun p h rest = some s) :
    uncoded s.2 = true := by
  induction rest generalizing p h with
  | nil =>
      cases hRun
      exact hState
  | cons ch rest ih =>
      obtain ⟨s', hGoes, hRest⟩ := valueRun_cons_eq_some hRun
      exact ih (valueSwitch_uncoded hState hGoes) hRest

/-! ### A line -/

/-- The line states the coding. -/
def Codes (line : ByteString × ByteString) : Prop := lower line.1 = hfTransferEncoding ∧ SaysChunked line.2

instance (line : ByteString × ByteString) : Decidable (Codes line) :=
  inferInstanceAs (Decidable (lower line.1 = hfTransferEncoding ∧ SaysChunked line.2))

/-- Behind a name the parser has not matched a coding yet. -/
theorem NamesCoding.unmatched (h : NamesCoding read q) : q.headerState ≠ .transferEncodingChunked := by
  intro hMatched
  cases h with
  | onTrack hPrefix hIndex hState =>
      rw [hState] at hMatched
      split at hMatched
      · cases hMatched
      · cases hMatched
  | off hNot hState =>
      rw [hMatched] at hState
      cases hState

/-- Behind a value the parser has matched the coding exactly if the line states it. -/
theorem wholeValue_codes {line : ByteString × ByteString} (hTokens : ∀ c ∈ line.1, token c ≠ 0)
    (hName : wholeName p line.1 = some q) (hValue : wholeValue q line.2 = some r) :
    r.headerState = .transferEncodingChunked ↔ Codes line := by
  have hNames := wholeName_names hTokens hName
  have hCoding := hNames.state_iff
  cases hCase : line.2 with
  | nil =>
      rw [hCase] at hValue
      cases hValue
      apply iff_of_false hNames.unmatched
      rintro ⟨-, hSays⟩
      rw [hCase] at hSays
      revert hSays
      decide
  | cons ch rest =>
      rw [hCase, wholeValue] at hValue
      split at hValue
      case h_2 => cases hValue
      case h_1 p' hGoes =>
        obtain ⟨s, hRest, rfl⟩ := Option.map_eq_some_iff.mp hValue
        by_cases hState : q.headerState = .transferEncoding
        · have hReads := valueRun_reads (readsCoding_start hState hGoes) hRest
          show s.2 = .transferEncodingChunked ↔ _
          rw [hReads.state_iff, Codes, saysChunked_iff, hCase]
          exact ⟨fun hSays => ⟨hCoding.mp hState, hSays⟩, fun hCodes => hCodes.2⟩
        · have hUncoded := valueRun_uncoded
            (valueStartSwitch_uncoded (p := { q with state := .headerValue, index := 0 }) hState hGoes) hRest
          refine iff_of_false (fun hMatched => ?_) fun hCodes => hState (hCoding.mpr hCodes.1)
          have hSame : s.2 = .transferEncodingChunked := hMatched
          rw [hSame] at hUncoded
          cases hUncoded

end Doormat.Http
