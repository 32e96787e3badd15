import Doormat.Http.HeaderLine

/-! A header line as runs of the parser's switches over its name and its value. The parser
reads a line as these runs go; what they leave of the fields that frame a message is known
for the names that the parser matches, and for all others. -/
namespace Doormat.Http

open Bytes Doormat.Parser

/-- The check of a line, byte by byte. -/
def lineCheck (name value : ByteString) : Bool :=
  name ≠ [] && (name.all (token · ≠ 0) &&
    (value.all (fun c => isHeaderChar c && (c ≠ CR && c ≠ LF)) && value.head?.all fun c => c ≠ SP && c ≠ HT))

theorem lineCheck_iff {name value : ByteString} : lineCheck name value = true ↔ Line name value := by
  simp only [lineCheck, Bool.and_eq_true, decide_eq_true_eq, List.all_eq_true, Option.all_eq_true]
  exact ⟨fun h => ⟨h.1, h.2.1, h.2.2.1, h.2.2.2⟩, fun h => ⟨h.named, h.token, h.chars, h.start⟩⟩

instance (name value : ByteString) : Decidable (Line name value) := decidable_of_iff _ lineCheck_iff

/-! ### Runs -/

/-- The switch of `s_header_field` over the rest of a name. -/
def nameRun (p : Fields) : ByteString → Option Fields
  | [] => some p
  | ch :: rest =>
      match fieldSwitch p ch (token ch) with
      | .go p' => nameRun p' rest
      | _ => none

/-- The switch of `s_header_value` over the rest of a value. -/
def valueRun (p : Fields) (h : HeaderState) : ByteString → Option (Fields × HeaderState)
  | [] => some (p, h)
  | ch :: rest =>
      match valueSwitch p h ch (LOWER ch) with
      | .go r => valueRun r.1 r.2 rest
      | _ => none

/-- A name, from its first character on. -/
def wholeName (p : Fields) : ByteString → Option Fields
  | [] => none
  | ch :: rest =>
      nameRun { p with state := .headerField, index := 0, headerState := firstHeaderState (token ch) } rest

/-- A value, from its first character on. -/
def wholeValue (p : Fields) : ByteString → Option Fields
  | [] => some p
  | ch :: rest =>
      match valueStartSwitch { p with state := .headerValue, index := 0 } ch (LOWER ch) with
      | .go p' => (valueRun p' p'.headerState rest).map fun r => { r.1 with headerState := r.2 }
      | _ => none

/-- The parser after a line, in front of the next. -/
def lineRun (p : Fields) (line : ByteString × ByteString) : Option Fields :=
  (wholeName p line.1).bind fun p => (wholeValue p line.2).map fun p =>
    (finishHeader p).updateState .headerFieldStart

/-- The parser after all lines. -/
def sectionRun (p : Fields) (lines : List (ByteString × ByteString)) : Option Fields :=
  lines.foldlM lineRun p

/-! ### Reading -/

variable {p p' : Fields} {n : Nat} {name value front rest : ByteString} {ch : UInt8}

theorem nameRun_cons_eq_some (h : nameRun p (ch :: rest) = some p') :
    ∃ q, fieldSwitch p ch (token ch) = .go q ∧ nameRun q rest = some p' := by
  rw [nameRun] at h
  split at h
  case h_1 q hGoes => exact ⟨q, hGoes, h⟩
  case h_2 => cases h

theorem valueRun_cons_eq_some {h : HeaderState} {r : Fields × HeaderState}
    (hRun : valueRun p h (ch :: rest) = some r) :
    ∃ q, valueSwitch p h ch (LOWER ch) = .go q ∧ valueRun q.1 q.2 rest = some r := by
  rw [valueRun] at hRun
  split at hRun
  case h_1 q hGoes => exact ⟨q, hGoes, hRun⟩
  case h_2 => cases hRun

/-- The rest of a name is read as its run goes. -/
theorem reads_nameRun {l : Locals} (hMark : l.mark = some (.headerField, front))
    (hLoop : l.loop = .outer ∧ l.fields.state = .headerField ∨ ∃ read, l.loop = .field read)
    (hTokens : ∀ c ∈ rest, token c ≠ 0) (hRun : nameRun l.fields rest = some p')
    (hRoom : l.counted + rest.length ≤ httpMaxHeaderSize) :
    ∃ l', l.reads rest = some (l', []) ∧ l'.mark = some (.headerField, front ++ rest) ∧
      (l'.loop = .outer ∧ l'.fields.state = .headerField ∨ ∃ read, l'.loop = .field read) ∧
      l'.fields = p' ∧ l'.counted = l.counted + rest.length := by
  induction rest generalizing l front with
  | nil =>
      refine ⟨l, rfl, ?_, hLoop, Option.some.inj hRun, rfl⟩
      rw [List.append_nil]
      exact hMark
  | cons ch rest ih =>
      obtain ⟨q, hGoes, hRest⟩ := nameRun_cons_eq_some hRun
      rw [List.length_cons] at hRoom
      obtain ⟨l₁, hRead, hMark₁, hLoop₁, rfl, hCounted₁⟩ :=
        read_name hMark hLoop (hTokens ch List.mem_cons_self) hGoes (by omega)
      obtain ⟨l', hReads, hMark', hLoop', hFields, hCounted⟩ :=
        ih hMark₁ (.inr hLoop₁) (fun c hc => hTokens c (List.mem_cons_of_mem ch hc)) hRest (by omega)
      refine ⟨l', Locals.reads_cons hRead hReads, ?_, hLoop', hFields, ?_⟩
      · rw [hMark', snoc_cons]
      · rw [hCounted, hCounted₁, List.length_cons]
        omega

/-- A further byte of a value, where the switch goes on. -/
theorem read_valueGo {l : Locals} {h : HeaderState} {r : Fields × HeaderState} (hIn : InValue l front h)
    (hl : l.Regular) (hChar : isHeaderChar ch = true ∧ ch ≠ CR ∧ ch ≠ LF)
    (hGoes : valueSwitch l.fields h ch (LOWER ch) = .go r) (hRoom : l.counted ≤ httpMaxHeaderSize) :
    ∃ l', l.read ch = some (l', []) ∧ InValue l' (front ++ [ch]) r.2 ∧ l'.fields = r.1 ∧
      l'.counted = l.counted + 1 := by
  have hMark := hIn.mark
  have hLoop := hIn.loop
  have hFits := hl.loop
  obtain ⟨p, n, mark, loop⟩ := l
  simp only at hMark hLoop hFits hGoes
  subst hMark
  cases hLoop with
  | inl hOuter =>
      obtain ⟨rfl, hState, rfl⟩ := hOuter
      rw [counted_outer _ (by rw [hState]; rfl)] at hRoom ⊢
      rw [read_valueOuter hState hChar hRoom, hGoes]
      exact ⟨_, rfl, ⟨rfl, .inr ⟨_, _, rfl⟩⟩, rfl, rfl⟩
  | inr hInner =>
      obtain ⟨read, skip, rfl⟩ := hInner
      rw [counted_value]
      cases skip with
      | none =>
          rw [read_valueInner hChar, hGoes]
          exact ⟨_, rfl, ⟨rfl, .inr ⟨_, _, rfl⟩⟩, rfl, rfl⟩
      | some k =>
          -- only a value that nobody matches is skipped
          obtain ⟨rfl, -⟩ := hFits.2.2 k rfl
          rw [read_valueSkip hChar]
          cases hGoes
          exact ⟨_, rfl, ⟨rfl, .inr ⟨_, _, rfl⟩⟩, rfl, rfl⟩

/-- The rest of a value is read as its run goes. -/
theorem reads_valueRun {l : Locals} {h : HeaderState} {r : Fields × HeaderState} (hIn : InValue l front h)
    (hl : l.Regular) (hChars : ∀ c ∈ rest, isHeaderChar c = true ∧ c ≠ CR ∧ c ≠ LF)
    (hRun : valueRun l.fields h rest = some r) (hRoom : l.counted + rest.length ≤ httpMaxHeaderSize) :
    ∃ l', l.reads rest = some (l', []) ∧ InValue l' (front ++ rest) r.2 ∧ l'.Regular ∧ l'.fields = r.1 ∧
      l'.counted = l.counted + rest.length := by
  induction rest generalizing l front h with
  | nil =>
      cases hRun
      refine ⟨l, rfl, ?_, hl, rfl, rfl⟩
      rw [List.append_nil]
      exact hIn
  | cons ch rest ih =>
      obtain ⟨q, hGoes, hRest⟩ := valueRun_cons_eq_some hRun
      rw [List.length_cons] at hRoom
      obtain ⟨l₁, hRead, hIn₁, hFields₁, hCounted₁⟩ :=
        read_valueGo hIn hl (hChars ch List.mem_cons_self) hGoes (by omega)
      rw [← hFields₁] at hRest
      obtain ⟨l', hReads, hIn', hl', hFields, hCounted⟩ :=
        ih hIn₁ (read_regular hl hRead) (fun c hc => hChars c (List.mem_cons_of_mem ch hc)) hRest (by omega)
      refine ⟨l', Locals.reads_cons hRead hReads, ?_, hl', hFields, ?_⟩
      · rw [← snoc_cons]
        exact hIn'
      · rw [hCounted, hCounted₁, List.length_cons]
        omega

/-- Behind `front` the parser goes on with the next line as from `l'`, once it has called
`said`. -/
def Leads (l : Locals) (front : ByteString) (said : List Callback) (l' : Locals) : Prop :=
  ∀ ch rest, ch ≠ SP ∧ ch ≠ HT →
    l.reads (front ++ ch :: rest) = (l'.reads (ch :: rest)).map fun r => (r.1, said ++ r.2)

theorem Leads.after {l l₁ l' : Locals} {cs said : List Callback} (hReads : l.reads front = some (l₁, cs))
    (h : Leads l₁ [] said l') : Leads l front (cs ++ said) l' := by
  intro ch rest hBlank
  have hNext := h ch rest hBlank
  rw [List.nil_append] at hNext
  rw [Locals.reads, Transducer.reads_append]
  simp only [Locals.reads] at hReads hNext
  rw [hReads, Option.bind_some, hNext, Option.map_map]
  exact Option.map_congr (fun r _ => by simp)

theorem reads_cons_map {l l' : Locals} {said : List Callback}
    (hRead : l.read ch = (l'.read ch).map fun r => (r.1, said ++ r.2)) (rest : ByteString) :
    l.reads (ch :: rest) = (l'.reads (ch :: rest)).map fun r => (r.1, said ++ r.2) := by
  simp only [Locals.reads, Transducer.reads, hRead]
  cases l'.read ch with
  | none => rfl
  | some r => simp [Option.map_map, Function.comp_def]

theorem leads_lws (hState : p.state = .headerValueLws) :
    Leads ⟨p, n, none, .outer⟩ [] []
      ⟨(finishHeader p).updateState .headerFieldStart, n, none, .outer⟩ := by
  intro ch rest hBlank
  apply reads_cons_map
  rw [read_lws hState hBlank]
  exact Option.map_id'.symm

theorem leads_discardLws (hState : p.state = .headerValueDiscardLws) :
    Leads ⟨p, n, none, .outer⟩ [] [.data 0 .headerValue []]
      ⟨(finishHeader p).updateState .headerFieldStart, n, none, .outer⟩ := by
  intro ch rest hBlank
  apply reads_cons_map
  rw [read_discardLws hState hBlank]
  rfl

theorem finishHeader_updateState (p : Fields) (s t : State) :
    (finishHeader (p.updateState s)).updateState t = (finishHeader p).updateState t := by
  unfold finishHeader Fields.updateState
  dsimp only
  split
  all_goals rfl

/-- The name of a line, up to the space before the value. -/
theorem reads_wholeName (hLine : Line name value) (hState : p.state = .headerFieldStart)
    (hRun : wholeName p name = some p') (hRoom : n + name.length + 2 ≤ httpMaxHeaderSize) :
    (Locals.mk p n none .outer).reads (name ++ [':'.toUInt8, SP]) =
      some (⟨p'.updateState .headerValueDiscardWs, n + name.length + 2, none, .outer⟩,
        [.data 0 .headerField name]) := by
  cases hName : name with
  | nil => exact absurd hName hLine.named
  | cons ch rest =>
      have hTokens : ∀ c ∈ ch :: rest, token c ≠ 0 := hName ▸ hLine.token
      rw [hName] at hRun hRoom
      rw [List.length_cons] at hRoom
      have hFirst := read_nameStart (n := n) hState (hTokens ch List.mem_cons_self) (by omega)
      obtain ⟨l, hRest, hMark, hLoop, hFields, hCounted⟩ :=
        reads_nameRun (l := ⟨_, n + 1, some (.headerField, [ch]), .outer⟩) rfl (.inl ⟨rfl, rfl⟩)
          (fun c hc => hTokens c (List.mem_cons_of_mem ch hc)) hRun
          (by rw [counted_outer _ rfl]; omega)
      rw [counted_outer _ rfl] at hCounted
      have hColon := read_colon hMark hLoop (by omega)
      rw [hFields, hCounted] at hColon
      have hSpace := read_space (p := p'.updateState .headerValueDiscardWs) rfl
        (n := n + 1 + 1 + rest.length) (by omega)
      have hAll := Locals.reads_cons hFirst (Locals.reads_trans hRest
        (Locals.reads_cons hColon (Locals.reads_cons hSpace (Locals.reads_nil _))))
      have hCount : n + 1 + 1 + rest.length + 1 = n + (rest.length + 1) + 2 := by omega
      rw [hCount] at hAll
      exact hAll

/-- The value of a line, and its end. -/
theorem leads_wholeValue (hLine : Line name value) (hRun : wholeValue p value = some p')
    (hRoom : n + value.length + 2 ≤ httpMaxHeaderSize) :
    Leads ⟨p.updateState .headerValueDiscardWs, n, none, .outer⟩ (value ++ [CR, LF])
      [.data 0 .headerValue value]
      ⟨(finishHeader p').updateState .headerFieldStart, n + value.length + 2, none, .outer⟩ := by
  have hState : (p.updateState .headerValueDiscardWs).state = .headerValueDiscardWs := rfl
  cases hValue : value with
  | nil =>
      rw [hValue] at hRun hRoom
      cases hRun
      have hCR := read_emptyEnd (n := n) hState (by simp at hRoom; omega)
      have hLF := read_lineFeedEmpty (p := (p.updateState .headerValueDiscardWs).updateState
        .headerValueDiscardWsAlmostDone) (n := n + 1) rfl (by simp at hRoom; omega)
      have hReads := Locals.reads_cons hCR (Locals.reads_cons hLF (Locals.reads_nil _))
      have hLeads := Leads.after hReads (leads_discardLws rfl)
      rw [finishHeader_updateState, finishHeader_updateState, finishHeader_updateState] at hLeads
      exact hLeads
  | cons ch rest =>
      have hChars : ∀ c ∈ ch :: rest, isHeaderChar c = true ∧ c ≠ CR ∧ c ≠ LF := hValue ▸ hLine.chars
      have hBlank := hLine.start ch (by rw [hValue]; rfl)
      rw [hValue] at hRun hRoom
      rw [List.length_cons] at hRoom
      rw [wholeValue] at hRun
      have hFirst := read_valueStart (n := n) hState hBlank (hChars ch List.mem_cons_self).2 (by omega)
      have hSame : ({ p.updateState .headerValueDiscardWs with state := .headerValue, index := 0 } : Fields) =
          { p with state := .headerValue, index := 0 } := rfl
      rw [hSame] at hFirst
      split at hRun
      case h_2 => cases hRun
      case h_1 q hGoes =>
        obtain ⟨r, hRest, rfl⟩ := Option.map_eq_some_iff.mp hRun
        rw [hGoes] at hFirst
        have hq : q.state = .headerValue := valueStartSwitch_state hGoes
        have hRegular : (Locals.mk (p.updateState .headerValueDiscardWs) n none .outer).Regular :=
          ⟨rfl, trivial, fun hNot => nomatch hNot⟩
        obtain ⟨l, hReads, hIn, hl, hFields, hCounted⟩ :=
          reads_valueRun (l := ⟨q, n + 1, some (.headerValue, [ch]), .outer⟩) (h := q.headerState)
            ⟨rfl, .inl ⟨rfl, hq, rfl⟩⟩ (read_regular hRegular hFirst)
            (fun c hc => hChars c (List.mem_cons_of_mem ch hc)) hRest
            (by rw [counted_outer _ (by rw [hq]; rfl)]; omega)
        rw [counted_outer _ (by rw [hq]; rfl)] at hCounted
        have hEnd := read_valueEnd hIn hl (by omega)
        have hFeed := read_lineFeed (p := { l.fields with state := .headerAlmostDone, headerState := r.2 })
          (n := l.counted) rfl (by omega)
        have hAll := Locals.reads_cons hFirst (Locals.reads_trans hReads
          (Locals.reads_cons hEnd (Locals.reads_cons hFeed (Locals.reads_nil _))))
        have hLeads := Leads.after hAll (leads_lws rfl)
        have hCount : l.counted + 1 = n + (rest.length + 1) + 2 := by omega
        rw [finishHeader_updateState, hFields, hCount] at hLeads
        have hFinish := finishHeader_updateState { r.1 with headerState := r.2 } .headerAlmostDone
          .headerFieldStart
        rw [← hFinish]
        exact hLeads

/-- What the parser calls for a line. -/
def lineCallbacks (line : ByteString × ByteString) : List Callback :=
  [.data 0 .headerField line.1, .data 0 .headerValue line.2]

theorem lineBytes_eq (name value : ByteString) :
    lineBytes name value = (name ++ [':'.toUInt8, SP]) ++ (value ++ [CR, LF]) := by
  simp [lineBytes]

/-- A line is read as its runs go. -/
theorem leads_line {line : ByteString × ByteString} (hLine : Line line.1 line.2)
    (hState : p.state = .headerFieldStart) (hRun : lineRun p line = some p')
    (hRoom : n + (lineBytes line.1 line.2).length ≤ httpMaxHeaderSize) :
    Leads ⟨p, n, none, .outer⟩ (lineBytes line.1 line.2) (lineCallbacks line)
      ⟨p', n + (lineBytes line.1 line.2).length, none, .outer⟩ := by
  obtain ⟨q, hName, hRest⟩ := Option.bind_eq_some_iff.mp hRun
  obtain ⟨r, hValue, rfl⟩ := Option.map_eq_some_iff.mp hRest
  have hLength : (lineBytes line.1 line.2).length = line.1.length + line.2.length + 4 := by
    simp [lineBytes]
    omega
  rw [hLength] at hRoom ⊢
  have hFront := reads_wholeName (n := n) hLine hState hName (by omega)
  have hBack := leads_wholeValue (n := n + line.1.length + 2) hLine hValue (by omega)
  intro ch rest hBlank
  have hNext := hBack ch rest hBlank
  have hCount : n + line.1.length + 2 + line.2.length + 2 = n + (line.1.length + line.2.length + 4) := by
    omega
  rw [hCount] at hNext
  rw [lineBytes_eq, List.append_assoc, Locals.reads, Transducer.reads_append]
  simp only [Locals.reads] at hFront hNext
  rw [hFront, Option.bind_some, hNext, Option.map_map]
  exact Option.map_congr (fun r _ => rfl)

/-- A line leaves the parser where a line starts. -/
theorem lineRun_state {line : ByteString × ByteString} (hRun : lineRun p line = some p') :
    p'.state = .headerFieldStart := by
  obtain ⟨q, -, hRest⟩ := Option.bind_eq_some_iff.mp hRun
  obtain ⟨r, -, rfl⟩ := Option.map_eq_some_iff.mp hRest
  rfl

theorem sectionRun_state {lines : List (ByteString × ByteString)} (hState : p.state = .headerFieldStart)
    (hRun : sectionRun p lines = some p') : p'.state = .headerFieldStart := by
  induction lines generalizing p with
  | nil =>
      cases hRun
      exact hState
  | cons line lines ih =>
      obtain ⟨q, hLine, hRest⟩ := Option.bind_eq_some_iff.mp hRun
      exact ih (lineRun_state hLine) hRest

theorem ne_blank_of_token (h : token ch ≠ 0) : ch ≠ SP ∧ ch ≠ HT := by
  revert h
  exact forall_byte (P := fun ch => token ch ≠ 0 → ch ≠ SP ∧ ch ≠ HT) (by decide +kernel) ch

/-- The lines of a section, as they are written. -/
def sectionBytes (lines : List (ByteString × ByteString)) : ByteString :=
  lines.flatMap fun line => lineBytes line.1 line.2

/-- A section starts with a line, or is over. -/
theorem sectionBytes_cons {lines : List (ByteString × ByteString)} (hLines : ∀ line ∈ lines, Line line.1 line.2)
    (tail : ByteString) : ∃ ch rest, sectionBytes lines ++ CR :: tail = ch :: rest ∧ ch ≠ SP ∧ ch ≠ HT := by
  cases lines with
  | nil => exact ⟨CR, tail, rfl, by decide, by decide⟩
  | cons line lines =>
      have hLine := hLines line List.mem_cons_self
      cases hName : line.1 with
      | nil => exact absurd hName hLine.named
      | cons ch rest =>
          have hToken := hLine.token ch (by rw [hName]; exact List.mem_cons_self)
          refine ⟨ch, rest ++ ':'.toUInt8 :: SP :: (line.2 ++ [CR, LF]) ++ (sectionBytes lines ++ CR :: tail), ?_,
            ne_blank_of_token hToken⟩
          rw [sectionBytes, List.flatMap_cons, lineBytes, hName, ← sectionBytes]
          simp

/-- The lines of a section are read as their runs go. -/
theorem reads_section {lines : List (ByteString × ByteString)} (hLines : ∀ line ∈ lines, Line line.1 line.2)
    (hState : p.state = .headerFieldStart) (hRun : sectionRun p lines = some p')
    (hRoom : n + (sectionBytes lines).length ≤ httpMaxHeaderSize) (tail : ByteString) :
    (Locals.mk p n none .outer).reads (sectionBytes lines ++ CR :: tail) =
      ((Locals.mk p' (n + (sectionBytes lines).length) none .outer).reads (CR :: tail)).map fun r =>
        (r.1, lines.flatMap lineCallbacks ++ r.2) := by
  induction lines generalizing p n with
  | nil =>
      cases hRun
      exact Option.map_id'.symm
  | cons line lines ih =>
      obtain ⟨q, hLine, hRest⟩ := Option.bind_eq_some_iff.mp hRun
      have hBytes : sectionBytes (line :: lines) = lineBytes line.1 line.2 ++ sectionBytes lines :=
        List.flatMap_cons
      rw [hBytes, List.length_append] at hRoom
      have hAfter : ∀ next ∈ lines, Line next.1 next.2 := fun next hNext =>
        hLines next (List.mem_cons_of_mem line hNext)
      obtain ⟨ch, rest, hNext, hBlank⟩ := sectionBytes_cons hAfter tail
      have hLead := leads_line (n := n) (hLines line List.mem_cons_self) hState hLine (by omega) ch rest hBlank
      have hMore := ih hAfter (lineRun_state hLine) hRest (n := n + (lineBytes line.1 line.2).length)
        (by omega)
      rw [← hNext, hMore, Option.map_map] at hLead
      rw [hBytes, List.append_assoc, hLead, List.length_append, Nat.add_assoc]
      exact Option.map_congr (fun r _ => by simp)

end Doormat.Http
