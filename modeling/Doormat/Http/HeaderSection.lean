import Doormat.Http.Coding
import Doormat.Http.MessageRun

/-! Header sections whatever the names in them. The lines leave the first line and the framing
as they were, but for a coding and for a content length, which the parser knows by the first
characters of a name. A section that is read to its end has been read in this way, and fits. -/
namespace Doormat.Http

open Bytes Doormat.Parser

variable {p p' q r : Fields} {n : Nat} {name value read rest : ByteString} {ch c : UInt8}

/-! ### One line -/

/-- `q` has the first line and the framing of `p`. -/
structure Preserves (p q : Fields) : Prop where
  method : q.method = p.method
  major : q.httpMajor = p.httpMajor
  minor : q.httpMinor = p.httpMinor
  trailing : q.flags.trailing = p.flags.trailing
  skipbody : q.flags.skipbody = p.flags.skipbody
  contentlength : q.flags.contentlength = p.flags.contentlength
  chunked : q.flags.chunked = p.flags.chunked

theorem Preserves.refl (p : Fields) : Preserves p p := ⟨rfl, rfl, rfl, rfl, rfl, rfl, rfl⟩

theorem Preserves.trans (h : Preserves p q) (h' : Preserves q r) : Preserves p r where
  method := h'.method.trans h.method
  major := h'.major.trans h.major
  minor := h'.minor.trans h.minor
  trailing := h'.trailing.trans h.trailing
  skipbody := h'.skipbody.trans h.skipbody
  contentlength := h'.contentlength.trans h.contentlength
  chunked := h'.chunked.trans h.chunked

theorem matchNext_preserves (p : Fields) (c : UInt8) (constant : ByteString) (done other h : HeaderState) :
    Preserves p (matchNext p c constant done other h).1 := by
  unfold matchNext
  dsimp only
  repeat' split
  all_goals exact ⟨rfl, rfl, rfl, rfl, rfl, rfl, rfl⟩

theorem valueStartSwitch_preserves (h : valueStartSwitch p ch c = .go p') : Preserves p p' := by
  unfold valueStartSwitch at h
  repeat' split at h
  all_goals
    cases h
    try exact ⟨rfl, rfl, rfl, rfl, rfl, rfl, rfl⟩

theorem valueSwitch_preserves {h : HeaderState} {r : Fields × HeaderState} (hGoes : valueSwitch p h ch c = .go r) :
    Preserves p r.1 := by
  unfold valueSwitch at hGoes
  split at hGoes
  all_goals
    repeat' split at hGoes
  all_goals first
    | cases hGoes
      exact ⟨rfl, rfl, rfl, rfl, rfl, rfl, rfl⟩
    | cases hGoes
      exact matchNext_preserves p c _ _ _ _
    | cases hGoes

/-- The flag that the end of a line sets. -/
def coded (p : Fields) : Fields :=
  { p with flags := { p.flags with
    chunked := p.flags.chunked || decide (p.headerState = .transferEncodingChunked) } }

theorem finishHeader_preserves (p : Fields) : Preserves (coded p) (finishHeader p) := by
  unfold finishHeader coded
  split
  all_goals
    refine ⟨rfl, rfl, rfl, rfl, rfl, rfl, ?_⟩
    simp_all

theorem valueRun_preserves {h : HeaderState} {r : Fields × HeaderState} (hRun : valueRun p h rest = some r) :
    Preserves p r.1 := by
  induction rest generalizing p h with
  | nil =>
      cases hRun
      exact .refl p
  | cons ch rest ih =>
      obtain ⟨q, hGoes, hRest⟩ := valueRun_cons_eq_some hRun
      exact (valueSwitch_preserves hGoes).trans (ih hRest)

theorem wholeValue_preserves (hRun : wholeValue p value = some p') : Preserves p p' := by
  cases value with
  | nil =>
      cases hRun
      exact .refl p
  | cons ch rest =>
      rw [wholeValue] at hRun
      split at hRun
      case h_2 => cases hRun
      case h_1 q hGoes =>
        obtain ⟨r, hRest, rfl⟩ := Option.map_eq_some_iff.mp hRun
        have hStart := valueStartSwitch_preserves hGoes
        have hAfter := valueRun_preserves hRest
        have hBoth := hStart.trans hAfter
        exact { hBoth with }

/-- A value that is legible is read to its end. -/
theorem valueRun_isSome {h : HeaderState} (hValuing : Valuing name value rest p h) (hLegible : Legible name value) :
    ∃ r, valueRun p h rest = some r := by
  induction rest generalizing p h with
  | nil => exact ⟨(p, h), rfl⟩
  | cons ch rest ih =>
      cases hValuing.step (LOWER ch) with
      | inl hGo =>
          obtain ⟨r, hGoes, hNext⟩ := hGo
          obtain ⟨r', hRest⟩ := ih hNext
          refine ⟨r', ?_⟩
          rw [valueRun, hGoes]
          exact hRest
      | inr hError => exact absurd hLegible hError.2

theorem wholeValue_isSome (hLength : p.headerState = .contentLength ↔ lower name = hfContentLen)
    (hLegible : Legible name value) : ∃ p', wholeValue p value = some p' := by
  cases hValue : value with
  | nil => exact ⟨p, rfl⟩
  | cons ch rest =>
      cases valuing_start (p := { p with state := .headerValue, index := 0 }) hLength hValue (LOWER ch) with
      | inl hGo =>
          obtain ⟨q, hGoes, hValuing⟩ := hGo
          obtain ⟨r, hRun⟩ := valueRun_isSome hValuing hLegible
          refine ⟨{ r.1 with headerState := r.2 }, ?_⟩
          rw [wholeValue, hGoes]
          simp only [hRun]
          rfl
      | inr hError => exact absurd hLegible hError.2

/-- The flag that the first characters of a name set. -/
def stating (read : ByteString) (p : Fields) : Fields :=
  { p with flags := { p.flags with contentlength := p.flags.contentlength || decide (hfContentLen <+: read) } }

theorem matchNext_state (p : Fields) (c : UInt8) (constant : ByteString) {done h : HeaderState}
    (hDone : done ≠ .contentLength) (hStay : h ≠ .contentLength) :
    (matchNext p c constant done .general h).2 ≠ .contentLength := by
  unfold matchNext
  dsimp only
  split
  · intro hEq
    cases hEq
  split
  · exact hDone
  · exact hStay

/-- A character of a name sets the flag exactly if it completes `content-length`. -/
theorem fieldSwitch_preserves (hSpace : ch ≠ SP) (h : fieldSwitch p ch c = .go p') :
    Preserves { p with flags := { p.flags with
      contentlength := p.flags.contentlength || decide (p'.headerState = .contentLength) } } p' := by
  have hName : ∀ (constant : ByteString) {done : HeaderState}, done ≠ .contentLength →
      p.headerState ≠ .contentLength →
      Switch.go { (matchNext p c constant done .general p.headerState).1 with
        headerState := (matchNext p c constant done .general p.headerState).2 } = .go p' →
      Preserves { p with flags := { p.flags with
        contentlength := p.flags.contentlength || decide (p'.headerState = .contentLength) } } p' := by
    intro constant done hDone hState hEq
    have hNext := matchNext_preserves p c constant done .general p.headerState
    have hOther := matchNext_state p c constant hDone hState
    cases hEq
    refine { hNext with contentlength := ?_ }
    simp [hOther, hNext.contentlength]
  unfold fieldSwitch at h
  split at h
  case h_5 hState => exact hName _ (by decide) (by rw [hState]; decide) h
  case h_6 hState => exact hName _ (by decide) (by rw [hState]; decide) h
  case h_8 hState => exact hName _ (by decide) (by rw [hState]; decide) h
  case h_9 hState => exact hName _ (by decide) (by rw [hState]; decide) h
  case h_7 hState =>
    have hNext := matchNext_preserves p c (ofString "content-length") .contentLength .general p.headerState
    dsimp only at h
    split at h
    case isTrue hDone =>
      split at h
      · cases h
      · cases h
        refine { hNext with contentlength := ?_ }
        simp [hDone]
    case isFalse hNot =>
      cases h
      refine { hNext with contentlength := ?_ }
      simp [hNot, hNext.contentlength]
  case h_10 | h_11 | h_12 | h_13 =>
    rw [if_pos hSpace] at h
    cases h
    exact ⟨rfl, rfl, rfl, rfl, rfl, by simp, rfl⟩
  all_goals
    cases h
    try
      refine ⟨rfl, rfl, rfl, rfl, rfl, ?_, rfl⟩
      simp_all
  all_goals
    repeat' split
    all_goals simp

/-- A name that the parser takes is read to its end, and sets the flag if it starts as
`content-length` does. -/
theorem nameRun_stating {stated : Bool} (hNaming : Naming stated read q) (hStating : Preserves (stating read p) q)
    (hTokens : ∀ c ∈ rest, token c ≠ 0) (hOnce : hfContentLen <+: read ++ lower rest → stated = false) :
    ∃ q', nameRun q rest = some q' ∧ Naming stated (read ++ lower rest) q' ∧
      Preserves (stating (read ++ lower rest) p) q' := by
  induction rest generalizing read q with
  | nil =>
      refine ⟨q, rfl, ?_⟩
      rw [lower_nil, List.append_nil]
      exact ⟨hNaming, hStating⟩
  | cons ch rest ih =>
      have hToken := hTokens ch List.mem_cons_self
      have hSplit : read ++ lower (ch :: rest) = (read ++ [token ch]) ++ lower rest := by
        rw [token_eq_toLower hToken]
        simp [lower]
      rw [hSplit] at hOnce ⊢
      have hSpace := (ne_lineEnd_of_token hToken).2.2
      cases hNaming.step (token ch) hSpace with
      | inl hGo =>
          obtain ⟨q', hGoes, hNext⟩ := hGo
          have hSwitch := fieldSwitch_preserves hSpace hGoes
          have hLonger : Preserves (stating (read ++ [token ch]) p) q' := by
            refine ⟨hSwitch.method.trans hStating.method, hSwitch.major.trans hStating.major,
              hSwitch.minor.trans hStating.minor, hSwitch.trailing.trans hStating.trailing,
              hSwitch.skipbody.trans hStating.skipbody, ?_, hSwitch.chunked.trans hStating.chunked⟩
            rw [hSwitch.contentlength]
            show (q.flags.contentlength || _) = (p.flags.contentlength || _)
            rw [hStating.contentlength]
            simp only [stating, hNext.contentLength_iff, List.prefix_concat_iff, Bool.decide_or, Bool.or_assoc]
            rw [Bool.or_comm (decide (hfContentLen <+: read)), decide_eq_decide.mpr eq_comm]
          obtain ⟨q'', hRun, hBoth⟩ := ih hNext hLonger (fun c hc => hTokens c (List.mem_cons_of_mem ch hc)) hOnce
          refine ⟨q'', ?_, hBoth⟩
          rw [nameRun, hGoes]
          exact hRun
      | inr hRepeats =>
          obtain ⟨-, hStated, hWhole⟩ := hRepeats
          have hNone := hOnce (hWhole ▸ List.prefix_append _ _)
          rw [hNone] at hStated
          cases hStated

theorem wholeName_stating (hLine : Line name value) (hOnce : hfContentLen <+: lower name → p.flags.contentlength = false) :
    ∃ q, wholeName p name = some q ∧ (q.headerState = .contentLength ↔ lower name = hfContentLen) ∧
      Preserves (stating (lower name) p) q := by
  cases hName : name with
  | nil => exact absurd hName hLine.named
  | cons ch rest =>
      have hTokens : ∀ c ∈ ch :: rest, token c ≠ 0 := hName ▸ hLine.token
      have hSplit : lower (ch :: rest) = [token ch] ++ lower rest := by
        rw [token_eq_toLower (hTokens ch List.mem_cons_self)]
        rfl
      rw [hName, hSplit] at hOnce
      rw [hSplit]
      have hFirst : Preserves (stating [token ch] p)
          { p with state := .headerField, index := 0, headerState := firstHeaderState (token ch) } := by
        have hNot : ¬ hfContentLen <+: [token ch] := by
          intro hLong
          have hLength := hLong.length_le
          rw [length_hfContentLen] at hLength
          cases hLength
          contradiction
        refine ⟨rfl, rfl, rfl, rfl, rfl, ?_, rfl⟩
        simp [stating, hNot]
      obtain ⟨q, hRun, hNaming, hStating⟩ := nameRun_stating (naming_first rfl (token ch)) hFirst
        (fun c hc => hTokens c (List.mem_cons_of_mem ch hc)) hOnce
      exact ⟨q, hRun, hNaming.contentLength_iff, hStating⟩

/-! ### A section -/

variable {line : ByteString × ByteString} {lines : List (ByteString × ByteString)}

/-- What the lines of a section leave of the first line and of the framing. -/
structure Leaves (lines : List (ByteString × ByteString)) (p q : Fields) : Prop where
  method : q.method = p.method
  major : q.httpMajor = p.httpMajor
  minor : q.httpMinor = p.httpMinor
  trailing : q.flags.trailing = p.flags.trailing
  skipbody : q.flags.skipbody = p.flags.skipbody
  contentlength : q.flags.contentlength = true ↔
    p.flags.contentlength = true ∨ ∃ line ∈ lines, hfContentLen <+: lower line.1
  chunked : q.flags.chunked = true ↔ p.flags.chunked = true ∨ ∃ line ∈ lines, Codes line

theorem Leaves.nil (p : Fields) : Leaves [] p p := ⟨rfl, rfl, rfl, rfl, rfl, by simp, by simp⟩

theorem Leaves.cons (hFirst : Leaves [line] p q) (h : Leaves lines q r) : Leaves (line :: lines) p r where
  method := h.method.trans hFirst.method
  major := h.major.trans hFirst.major
  minor := h.minor.trans hFirst.minor
  trailing := h.trailing.trans hFirst.trailing
  skipbody := h.skipbody.trans hFirst.skipbody
  contentlength := by
    rw [h.contentlength, hFirst.contentlength]
    simp [or_assoc]
  chunked := by
    rw [h.chunked, hFirst.chunked]
    simp [or_assoc]

/-- A line that the parser takes is read to its end. -/
theorem lineRun_leaves (hLine : Line line.1 line.2) (hAdmissible : Admissible p.flags.contentlength line.1 line.2) :
    ∃ p', lineRun p line = some p' ∧ Leaves [line] p p' := by
  obtain ⟨q, hName, hLength, hStating⟩ := wholeName_stating hLine hAdmissible.once
  obtain ⟨r, hValue⟩ := wholeValue_isSome hLength hAdmissible.legible
  have hKept := hStating.trans (wholeValue_preserves hValue)
  have hFinish := finishHeader_preserves r
  have hCodes := wholeValue_codes hLine.token hName hValue
  refine ⟨(finishHeader r).updateState .headerFieldStart, ?_, ?_⟩
  · rw [lineRun, hName, Option.bind_some, hValue, Option.map_some]
  · refine ⟨hFinish.method.trans hKept.method, hFinish.major.trans hKept.major, hFinish.minor.trans hKept.minor,
      hFinish.trailing.trans hKept.trailing, hFinish.skipbody.trans hKept.skipbody, ?_, ?_⟩
    · show (finishHeader r).flags.contentlength = true ↔ _
      rw [hFinish.contentlength, coded, hKept.contentlength]
      simp [stating]
    · show (finishHeader r).flags.chunked = true ↔ _
      rw [hFinish.chunked, coded]
      simp [hKept.chunked, hCodes, stating]

/-- The parser takes the lines in a section that has `stated` a content length or has not. One name
at most starts as `content-length` does. -/
structure AdmissibleSection (stated : Bool) (lines : List (ByteString × ByteString)) : Prop where
  unstated : stated = true → ∀ line ∈ lines, ¬ hfContentLen <+: lower line.1
  once : lines.Pairwise fun line next => hfContentLen <+: lower line.1 → ¬ hfContentLen <+: lower next.1
  legible : ∀ line ∈ lines, Legible line.1 line.2

theorem admissibleSection_nil (stated : Bool) : AdmissibleSection stated [] :=
  ⟨fun _ => List.forall_mem_nil _, List.Pairwise.nil, List.forall_mem_nil _⟩

theorem admissibleSection_cons {stated : Bool} : AdmissibleSection stated (line :: lines) ↔ Admissible stated line.1 line.2 ∧
    AdmissibleSection (stated || decide (hfContentLen <+: lower line.1)) lines := by
  constructor
  · intro h
    obtain ⟨hFirst, hOnce⟩ := List.pairwise_cons.mp h.once
    obtain ⟨hLegible, hRest⟩ := List.forall_mem_cons.mp h.legible
    refine ⟨⟨fun hLong => ?_, hLegible⟩, fun hStated next hNext => ?_, hOnce, hRest⟩
    · by_contra hStated
      exact h.unstated (by simpa using hStated) line List.mem_cons_self hLong
    · rcases (Bool.or_eq_true _ _).mp hStated with hBefore | hLong
      · exact h.unstated hBefore next (List.mem_cons_of_mem line hNext)
      · exact hFirst next hNext (of_decide_eq_true hLong)
  · rintro ⟨hAdmissible, hRest⟩
    refine ⟨?_, List.pairwise_cons.mpr ⟨fun next hNext hLong => ?_, hRest.once⟩,
      List.forall_mem_cons.mpr ⟨hAdmissible.legible, hRest.legible⟩⟩
    · intro hStated
      rw [List.forall_mem_cons]
      refine ⟨fun hLong => ?_, hRest.unstated (by rw [hStated]; rfl)⟩
      rw [hAdmissible.once hLong] at hStated
      cases hStated
    · exact hRest.unstated (by rw [decide_eq_true hLong, Bool.or_true]) next hNext

/-- No name starts as `content-length` does. -/
theorem AdmissibleSection.of_undeclared (hUndeclared : ∀ line ∈ lines, ¬ hfContentLen <+: lower line.1) (stated : Bool) :
    AdmissibleSection stated lines where
  unstated _ := hUndeclared
  once := List.pairwise_of_forall_mem_list fun _ _ next hNext _ => hUndeclared next hNext
  legible line hMem hWhole := absurd (hWhole ▸ List.prefix_refl _) (hUndeclared line hMem)

theorem Leaves.stated (h : Leaves [line] p q) :
    q.flags.contentlength = (p.flags.contentlength || decide (hfContentLen <+: lower line.1)) := by
  rw [Bool.eq_iff_iff, h.contentlength]
  simp

/-- A section that the parser takes is read to its end. -/
theorem sectionRun_leaves (hLines : ∀ line ∈ lines, Line line.1 line.2)
    (hAdmits : AdmissibleSection p.flags.contentlength lines) :
    ∃ q, sectionRun p lines = some q ∧ Leaves lines p q := by
  induction lines generalizing p with
  | nil => exact ⟨p, rfl, .nil p⟩
  | cons line lines ih =>
      obtain ⟨hAdmissible, hRest⟩ := admissibleSection_cons.mp hAdmits
      obtain ⟨q, hRun, hFirst⟩ := lineRun_leaves (hLines line List.mem_cons_self) hAdmissible
      rw [← hFirst.stated] at hRest
      obtain ⟨r, hRuns, hLeaves⟩ := ih (fun next hNext => hLines next (List.mem_cons_of_mem line hNext)) hRest
      refine ⟨r, ?_, hFirst.cons hLeaves⟩
      rw [sectionRun, List.foldlM_cons, hRun]
      exact hRuns

/-- Lines that are read to their end, with the carriage return behind them, have fitted and have
been taken. -/
theorem lines_forced {l : Locals} {cs : List Callback} {tail : ByteString}
    (hLines : ∀ line ∈ lines, Line line.1 line.2) (hState : p.state = .headerFieldStart)
    (hReads : (Locals.mk p n none .outer).reads (sectionBytes lines ++ CR :: tail) = some (l, cs))
    (hNot : ¬ l.Overdrawn) :
    AdmissibleSection p.flags.contentlength lines ∧ n + (sectionBytes lines).length + 1 ≤ httpMaxHeaderSize := by
  have hParsing : p.state.parsingHeader = true := by
    rw [hState]
    rfl
  induction lines generalizing p n cs with
  | nil =>
      obtain ⟨l₁, out, out', hCR, -, -⟩ := Transducer.reads_cons_eq_some.mp hReads
      exact ⟨admissibleSection_nil _, le_of_read hParsing hCR⟩
  | cons line lines ih =>
      have hLine := hLines line List.mem_cons_self
      have hAfter : ∀ next ∈ lines, Line next.1 next.2 := fun next hNext => hLines next (List.mem_cons_of_mem line hNext)
      have hBytes : sectionBytes (line :: lines) = lineBytes line.1 line.2 ++ sectionBytes lines := List.flatMap_cons
      have hRegular : (Locals.mk p n none .outer).Regular := by
        refine ⟨?_, trivial, fun hDone => ?_⟩
        · show p.state.admits none = true
          rw [hState]
          rfl
        · rw [hState] at hDone
          cases hDone
      rw [hBytes, List.append_assoc] at hReads
      obtain ⟨ch, rest, hNext, hBlank⟩ := sectionBytes_cons hAfter tail
      have hAt : LineAt p line.1 line.2 (lineBytes line.1 line.2) [] ⟨p, n, none, .outer⟩ :=
        .start hState (.refl p) rfl
      obtain ⟨l', out, out', hRest, -, hOver, hl', hCounted⟩ := hAt.forced hLine hRegular hReads hNot
      rw [hNext] at hRest
      obtain ⟨l₁, out₁, out₂, hFirst, hMore, -⟩ := Transducer.reads_cons_eq_some.mp hRest
      have hRoom := counted_le_of_read (hOver.parsing hl') hFirst hMore hNot
      rw [hCounted, counted_outer _ hParsing] at hRoom
      have hAdmissible := hOver.admissible rfl
      obtain ⟨q, hRun, hFirst⟩ := lineRun_leaves hLine hAdmissible
      have hLead := leads_line (n := n) hLine hState hRun (by omega) ch rest hBlank
      rw [← hNext, hReads] at hLead
      obtain ⟨⟨l₂, cs₂⟩, hReads', hSame⟩ := Option.map_eq_some_iff.mp hLead.symm
      cases hSame
      have hState' := lineRun_state hRun
      obtain ⟨hAdmits, hFits⟩ := ih hAfter hState' hReads' (by rw [hState']; rfl)
      rw [hFirst.stated] at hAdmits
      refine ⟨admissibleSection_cons.mpr ⟨hAdmissible, hAdmits⟩, ?_⟩
      rw [hBytes, List.length_append]
      omega

/-- A section that is read to its end, with the empty line behind it. -/
theorem headers_forced {l : Locals} {cs : List Callback} {tail : ByteString}
    (hLines : ∀ line ∈ lines, Line line.1 line.2) (hState : p.state = .headerFieldStart)
    (hReads : (Locals.mk p n none .outer).reads (sectionBytes lines ++ CR :: LF :: tail) = some (l, cs))
    (hNot : ¬ l.Overdrawn) :
    AdmissibleSection p.flags.contentlength lines ∧ n + (sectionBytes lines).length + 2 ≤ httpMaxHeaderSize ∧
      ∃ q l' out rest, sectionRun p lines = some q ∧ Leaves lines p q ∧
        (Locals.mk (q.updateState .headersAlmostDone) (n + (sectionBytes lines).length + 1) none .outer).read LF =
          some (l', out) ∧
        cs = lines.flatMap lineCallbacks ++ (out ++ rest) := by
  obtain ⟨hAdmits, hRoom⟩ := lines_forced hLines hState hReads hNot
  obtain ⟨q, hRun, hLeaves⟩ := sectionRun_leaves hLines hAdmits
  have hTold := reads_section (n := n) hLines hState hRun (by omega) (LF :: tail)
  rw [hReads] at hTold
  obtain ⟨⟨l₂, told⟩, hEnd, hSame⟩ := Option.map_eq_some_iff.mp hTold.symm
  cases hSame
  obtain ⟨l₃, outCR, back, hReadCR, hMore, rfl⟩ := Transducer.reads_cons_eq_some.mp hEnd
  rw [read_endCR (sectionRun_state hState hRun) (by omega)] at hReadCR
  cases hReadCR
  obtain ⟨l₄, outLF, rest, hReadLF, -, rfl⟩ := Transducer.reads_cons_eq_some.mp hMore
  have hFits := le_of_read rfl hReadLF
  exact ⟨hAdmits, by omega, q, l₄, outLF, rest, hRun, hLeaves, hReadLF, rfl⟩

end Doormat.Http
