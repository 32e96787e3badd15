import Doormat.Http.Assembly

/-! The codec keeps track of the message as its callbacks spell it: what it holds back
is the line at hand, and it can only fault where the assembly shows why. -/
namespace Doormat.Http

open Bytes Doormat.Parser

variable {υ : Type} {cb : Callbacks υ}

/-- The codec `d` holds what the callbacks behind `a` have told it. -/
structure Tracks (a : Assembly) (d : Impl υ) : Prop where
  installed : d.installed = a.begun
  headersCompleted : d.headersCompleted = a.framing.isSome
  ignore : d.ignore = a.final
  gotHeader : d.gotHeader = a.pending
  key : d.key = a.key
  value : d.value = a.value
  urline : d.urline = a.target.getD []
  status : d.status = a.reason.getD []
  url : d.url.Within d.urline.length

/-- What must have gone wrong with a message, as its callbacks spell it, for the codec
to fault on it; `isRequest` tells what is installed. -/
def Explains (cb : Callbacks υ) (isRequest : Bool) (a : Assembly) : Fault → Prop
  | .noData => ∃ m user, (cb.begin m user).1 = none
  | .notRequest => a.target.isSome = true ∧ isRequest = false
  | .notResponse => a.reason.isSome = true ∧ isRequest = true
  | .httpMajor => ∃ p, a.framing = some p ∧ p.httpMajor ≠ 1
  | .contentLength e => ∃ line ∈ a.headers, lower line.1 = hfContentLen ∧ stoull line.2 = .error e
  | _ => False

namespace Impl

variable {a : Assembly} {d e : Impl υ} {bytes : ByteString}

theorem deref_ok (h : d.installed = true) : d.deref = .ok d.object := by
  simp [deref, h]

theorem deref_error (h : d.installed = false) : d.deref = .error .noData := by
  simp [deref, h]

/-! ### The header at hand -/

theorem header_error {data : StructuredData} {key value : ByteString} {err : ConversionError}
    (h : data.header key value = .error err) :
    lower key = hfContentLen ∧ stoull value = .error err := by
  unfold StructuredData.header at h
  split at h
  case isTrue hName =>
    refine ⟨hName, ?_⟩
    cases hValue : stoull value with
    | error err' =>
        rw [hValue] at h
        cases h
        rfl
    | ok n =>
        rw [hValue] at h
        cases h
  case isFalse => cases h

/-- What `process_current_header` does to a codec that has a header at hand. -/
def takeHeader (d : Impl υ) (data : StructuredData) : Impl υ :=
  { d.record (.header d.key d.value) with
    object := d.object.setData data, gotHeader := false, key := [], value := [] }

theorem processCurrentHeader_idle (h : d.gotHeader = false) : d.processCurrentHeader = .ok d := by
  simp [processCurrentHeader, h]

theorem processCurrentHeader_cases (hGot : d.gotHeader = true) :
    (d.installed = false ∧ d.processCurrentHeader = .error .noData) ∨
      (∃ err, lower d.key = hfContentLen ∧ stoull d.value = .error err ∧
        d.processCurrentHeader = .error (.contentLength err)) ∨
      ∃ data, d.installed = true ∧ d.object.data.header d.key d.value = .ok data ∧
        d.processCurrentHeader = .ok (d.takeHeader data) := by
  cases hInstalled : d.installed with
  | false =>
      left
      simp [processCurrentHeader, hGot, deref_error hInstalled, bind, Except.bind]
  | true =>
      right
      rcases hHeader : d.object.data.header d.key d.value with err | data
      · left
        obtain ⟨hName, hValue⟩ := header_error hHeader
        refine ⟨err, hName, hValue, ?_⟩
        simp [processCurrentHeader, hGot, deref_ok hInstalled, hHeader, bind, Except.bind]
      · right
        refine ⟨data, rfl, rfl, ?_⟩
        simp [processCurrentHeader, hGot, deref_ok hInstalled, hHeader, bind, Except.bind, takeHeader,
          record]

/-! ### What a callback does -/

/-- The message with the version that is announced for it. -/
def setVersion (p : Fields) (d : Impl υ) : Impl υ :=
  { d.chooseVersion p with
    object := d.object.setData (d.object.data.setProtocol (d.chooseVersion p).version) }

/-- A callback that succeeds leads from `d` to `e`. -/
inductive Accepts (cb : Callbacks υ) (d : Impl υ) : Callback → Impl υ → Prop
  | messageBegin {p : Fields} {m : Message} (hBegin : (cb.begin d.object d.user).1 = some m) :
      Accepts cb d (.notify p .messageBegin)
        { d.record .begin with
          user := (cb.begin d.object d.user).2, installed := true, object := m }
  | messageBeginAgain {p : Fields} (hBegin : (cb.begin d.object d.user).1 = none)
      (hInstalled : d.installed = true) :
      Accepts cb d (.notify p .messageBegin)
        { d.record .begin with user := (cb.begin d.object d.user).2 }
  | chunk {p : Fields} {c : Notification} (hChunk : c ≠ .messageBegin) :
      Accepts cb d (.notify p c) { d with ignore := d.ignore || p.bodyIsFinal }
  | url {code : Nat} {bytes : ByteString} {r r' : HttpRequest} {u : HttpParserUrl}
      (hInstalled : d.installed = true) (hObject : d.object = .request r)
      (hData : r'.toStructuredData = r.toStructuredData)
      (hUrl : d.url.Within d.urline.length → u.Within (d.urline ++ bytes).length)
      (hLength : (d.urline ++ bytes).length ≤ maxUriLen) :
      Accepts cb d (.data code .url bytes)
        { d with
          urline := d.urline ++ bytes, url := u, object := .request r', connected := true }
  | status {code : Nat} {bytes : ByteString} {r : HttpResponse} (hInstalled : d.installed = true)
      (hObject : d.object = .response r) :
      Accepts cb d (.data code .status bytes)
        { d with
          status := d.status ++ bytes
          object := .response { r with statusCode := code, statusMessage := d.status ++ bytes } }
  | field {code : Nat} {bytes : ByteString} (hHeaders : d.headersCompleted = false)
      (hGot : d.gotHeader = false) :
      Accepts cb d (.data code .headerField bytes) { d with key := d.key ++ bytes }
  | nextField {code : Nat} {bytes : ByteString} {data : StructuredData}
      (hHeaders : d.headersCompleted = false) (hGot : d.gotHeader = true)
      (hInstalled : d.installed = true) (hHeader : d.object.data.header d.key d.value = .ok data) :
      Accepts cb d (.data code .headerField bytes) { d.takeHeader data with key := bytes }
  | trailerField {code : Nat} {bytes : ByteString} (hHeaders : d.headersCompleted = true) :
      Accepts cb d (.data code .headerField bytes)
        { d.flushTrailer cb with key := (d.flushTrailer cb).key ++ bytes }
  | value {code : Nat} {bytes : ByteString} :
      Accepts cb d (.data code .headerValue bytes)
        { d with gotHeader := true, value := d.value ++ bytes }
  | ignored {code : Nat} {bytes : ByteString} (hIgnore : d.ignore = true) :
      Accepts cb d (.data code .body bytes) d
  | body {code : Nat} {bytes : ByteString} (hIgnore : d.ignore = false) :
      Accepts cb d (.data code .body bytes)
        { d.record (.body bytes) with user := cb.body bytes d.user }
  | headersComplete {p : Fields} (hMajor : p.httpMajor = 1) (hInstalled : d.installed = true)
      (hGot : d.gotHeader = false) :
      Accepts cb d (.headersComplete p) ((d.setVersion p).announceHeaders cb p)
  | lastHeader {p : Fields} {data : StructuredData} (hMajor : p.httpMajor = 1)
      (hInstalled : d.installed = true) (hGot : d.gotHeader = true)
      (hHeader : (d.setVersion p).object.data.header d.key d.value = .ok data) :
      Accepts cb d (.headersComplete p) (((d.setVersion p).takeHeader data).announceHeaders cb p)
  | messageComplete : Accepts cb d .messageComplete (d.completeMessage cb)

/-- How a callback ends: it succeeds, it is a target that is too long, or it faults on
what it explains. -/
def Ends (cb : Callbacks υ) (a : Assembly) (d : Impl υ) (c : Callback) :
    Except (Halt υ) (Impl υ) → Prop
  | .ok e => Accepts cb d c e
  | .error (.failed _ e) =>
      ((assembler.next a c).target.getD []).length > maxUriLen ∧
        ∃ bytes, e = { d with urline := d.urline ++ bytes }
  | .error (.fault f) =>
      (assembler.next a c).misplaced = true ∨
        Explains cb d.object.isRequest (assembler.next a c) f

theorem substr_ok {s : ByteString} {field : FieldData} (h : field.off ≤ s.length) :
    substr s field = .ok ((s.drop field.off).take field.len) := by
  simp [substr, Nat.not_lt.mpr h]

theorem storeUrl_ok {r : HttpRequest} {urline : ByteString} {u : HttpParserUrl}
    (h : u.Within urline.length) :
    ∃ r', storeUrl r urline u = .ok r' ∧ r'.toStructuredData = r.toStructuredData := by
  have hSubstr : ∀ f, substr urline (u.field f) =
      .ok ((urline.drop (u.field f).off).take (u.field f).len) := fun f => substr_ok (h f)
  have hSchema := hSubstr .schema
  have hHost := hSubstr .host
  have hPort := hSubstr .port
  have hPath := hSubstr .path
  have hQuery := hSubstr .query
  have hFragment := hSubstr .fragment
  have hUserinfo := hSubstr .userinfo
  simp only [HttpParserUrl.field] at hSchema hHost hPort hPath hQuery hFragment hUserinfo
  simp only [storeUrl, hSchema, hHost, hPort, hPath, hQuery, hFragment, hUserinfo, bind, Except.bind]
  exact ⟨_, rfl, rfl⟩

theorem flush_idle {a : Assembly} (h : a.pending = false) : a.flush = a := by
  simp [Assembly.flush, h]

theorem ends_field (hTracks : Tracks a d) (code : Nat) (bytes : ByteString) :
    Ends cb a d (.data code .headerField bytes) (d.apply cb (.data code .headerField bytes)) := by
  simp only [apply, Settings.data, settings]
  cases hHeaders : d.headersCompleted with
  | true => exact .trailerField hHeaders
  | false =>
      have hFraming : a.framing.isSome = false := hTracks.headersCompleted ▸ hHeaders
      simp only [Bool.not_false, if_true, onHeaderField, hHeaders]
      cases hGot : d.gotHeader with
      | false =>
          rw [processCurrentHeader_idle hGot]
          exact .field hHeaders hGot
      | true =>
          have hPending : a.pending = true := hTracks.gotHeader ▸ hGot
          rcases processCurrentHeader_cases hGot with ⟨hInstalled, hRun⟩ | ⟨err, hName, hValue, hRun⟩ |
            ⟨data, hInstalled, hHeader, hRun⟩
          · rw [hRun]
            have hBegun : a.begun = false := hTracks.installed ▸ hInstalled
            left
            simp [Gatherer.next, Assembly.data_headerField, hBegun]
          · rw [hRun]
            right
            refine ⟨(d.key, d.value), ?_, hName, hValue⟩
            rw [hTracks.key, hTracks.value]
            simp [Gatherer.next, Assembly.data_headerField, Assembly.flush, hPending, hFraming]
          · rw [hRun]
            exact .nextField hHeaders hGot hInstalled hHeader

theorem ends_url (hTracks : Tracks a d) (code : Nat) (bytes : ByteString) :
    Ends cb a d (.data code .url bytes) (d.apply cb (.data code .url bytes)) := by
  have hUrline := hTracks.urline
  simp only [apply, Settings.data, settings, onUrl]
  split
  case isTrue hLong =>
    refine ⟨?_, bytes, rfl⟩
    simpa [Gatherer.next, Assembly.data_url, hUrline] using hLong
  case isFalse hShort =>
    rcases Bool.eq_false_or_eq_true d.installed with hInstalled | hInstalled
    case inr =>
        have hBegun : a.begun = false := hTracks.installed ▸ hInstalled
        rw [deref_error (d := { d with urline := d.urline ++ bytes }) hInstalled]
        left
        simp [Gatherer.next, Assembly.data_url, hBegun]
    case inl =>
        have hWithin : d.url.Within (d.urline ++ bytes).length :=
          hTracks.url.mono (by simp)
        have hParse := httpParserParseUrl_within d.connected
          (show bytes.length ≤ (d.urline ++ bytes).length by simp) hWithin
        have hDeref : ({ d with urline := d.urline ++ bytes } : Impl υ).deref = .ok d.object :=
          deref_ok hInstalled
        rw [hDeref]
        cases hObject : d.object with
        | response r =>
            right
            refine ⟨?_, by rw [hObject]; rfl⟩
            simp [Gatherer.next, Assembly.data_url]
        | request r =>
            rcases hUrl : httpParserParseUrl bytes d.connected d.url with ⟨u, parsed⟩
            rw [hUrl] at hParse
            simp only [bind, Except.bind]
            cases parsed with
            | false => exact Accepts.url hInstalled hObject rfl (fun _ => hParse) (by omega)
            | true =>
                obtain ⟨r', hStore, hData⟩ := storeUrl_ok (r := r) hParse
                simp only [hStore, if_true]
                exact Accepts.url hInstalled hObject hData (fun _ => hParse) (by omega)

theorem ends_status (hTracks : Tracks a d) (code : Nat) (bytes : ByteString) :
    Ends cb a d (.data code .status bytes) (d.apply cb (.data code .status bytes)) := by
  simp only [apply, Settings.data, settings, onStatus]
  rcases Bool.eq_false_or_eq_true d.installed with hInstalled | hInstalled
  case inr =>
      have hBegun : a.begun = false := hTracks.installed ▸ hInstalled
      rw [deref_error hInstalled]
      left
      simp [Gatherer.next, Assembly.data_status, hBegun]
  case inl =>
      rw [deref_ok hInstalled]
      cases hObject : d.object with
      | request r =>
          right
          refine ⟨?_, by rw [hObject]; rfl⟩
          simp [Gatherer.next, Assembly.data_status]
      | response r => exact Accepts.status hInstalled hObject

theorem ends_notify (a : Assembly) (d : Impl υ) (p : Fields) (c : Notification) :
    Ends cb a d (.notify p c) (d.apply cb (.notify p c)) := by
  cases c with
  | messageBegin =>
      simp only [apply, Settings.notification, settings, onMessageBegin]
      rcases hBegin : (cb.begin d.object d.user).1 with _ | m
      · rcases Bool.eq_false_or_eq_true d.installed with hInstalled | hInstalled
        · simp only [record, hInstalled, if_true]
          exact hInstalled ▸ Accepts.messageBeginAgain hBegin hInstalled
        · simp only [record, hInstalled]
          exact .inr ⟨d.object, d.user, hBegin⟩
      · exact Accepts.messageBegin hBegin
  | chunkHeader | chunkComplete =>
      simp only [apply, Settings.notification, settings, onChunk]
      have hChunk : (if p.bodyIsFinal = true then ({ d with ignore := true } : Impl υ) else d) =
          { d with ignore := d.ignore || p.bodyIsFinal } := by
        cases p.bodyIsFinal <;> simp
      rw [hChunk]
      exact Accepts.chunk (by decide)

theorem ends_headersComplete (hTracks : Tracks a d) (p : Fields) :
    Ends cb a d (.headersComplete p) (d.apply cb (.headersComplete p)) := by
  simp only [apply, onHeadersComplete]
  split
  case isTrue hMajor => exact .inr ⟨p, rfl, hMajor⟩
  case isFalse hMajor =>
    have hMajor : p.httpMajor = 1 := by simpa using hMajor
    have hSame : (d.chooseVersion p).installed = d.installed ∧
        (d.chooseVersion p).object = d.object := by
      unfold chooseVersion
      split <;> exact ⟨rfl, rfl⟩
    rcases Bool.eq_false_or_eq_true d.installed with hInstalled | hInstalled
    case inr =>
        have hBegun : a.begun = false := hTracks.installed ▸ hInstalled
        rw [deref_error (hSame.1.trans hInstalled)]
        left
        simp [Gatherer.next, Assembly.headersComplete, hBegun]
    case inl =>
        rw [deref_ok (hSame.1.trans hInstalled), hSame.2]
        have hSet : ({ d.chooseVersion p with
            object := d.object.setData (d.object.data.setProtocol (d.chooseVersion p).version) } :
              Impl υ) = d.setVersion p := rfl
        simp only [bind, Except.bind]
        rw [hSet]
        have hFields : (d.setVersion p).gotHeader = d.gotHeader ∧ (d.setVersion p).key = d.key ∧
            (d.setVersion p).value = d.value ∧ (d.setVersion p).installed = d.installed := by
          unfold setVersion chooseVersion
          split <;> exact ⟨rfl, rfl, rfl, rfl⟩
        obtain ⟨hGotEq, hKeyEq, hValueEq, hInstalledEq⟩ := hFields
        cases hGot : d.gotHeader with
        | false =>
            rw [processCurrentHeader_idle (hGotEq.trans hGot)]
            exact Accepts.headersComplete hMajor hInstalled hGot
        | true =>
            have hPending : a.pending = true := hTracks.gotHeader ▸ hGot
            rcases processCurrentHeader_cases (hGotEq.trans hGot) with
              ⟨hNot, -⟩ | ⟨err, hName, hValue, hRun⟩ | ⟨data, -, hHeader, hRun⟩
            · rw [hInstalledEq, hInstalled] at hNot
              cases hNot
            · rw [hRun]
              cases hFraming : a.framing with
              | some q =>
                  left
                  simp [Gatherer.next, Assembly.headersComplete, hFraming]
              | none =>
                  right
                  refine ⟨(d.key, d.value), ?_, hKeyEq ▸ hName, hValueEq ▸ hValue⟩
                  rw [hTracks.key, hTracks.value]
                  simp [Gatherer.next, Assembly.headersComplete, Assembly.flush, hPending, hFraming]
            · rw [hRun]
              rw [hKeyEq, hValueEq] at hHeader
              exact Accepts.lastHeader hMajor hInstalled hGot hHeader

/-- How the callbacks end. -/
theorem apply_ends (hTracks : Tracks a d) (c : Callback) : Ends cb a d c (d.apply cb c) := by
  cases c with
  | notify p c => exact ends_notify a d p c
  | data code m bytes =>
      cases m with
      | headerField => exact ends_field hTracks code bytes
      | headerValue =>
          simp only [apply, Settings.data, settings]
          rcases Bool.eq_false_or_eq_true d.headersCompleted with hHeaders | hHeaders
          · rw [if_neg (by simp [hHeaders])]
            exact Accepts.value
          · rw [if_pos (by simp [hHeaders]), onHeaderValue, if_neg (by simp [hHeaders])]
            exact Accepts.value
      | url => exact ends_url hTracks code bytes
      | status => exact ends_status hTracks code bytes
      | body =>
          simp only [apply, Settings.data, settings, onBody]
          cases hIgnore : d.ignore with
          | true => exact Accepts.ignored hIgnore
          | false => exact Accepts.body hIgnore
  | headersComplete p => exact ends_headersComplete hTracks p
  | messageComplete => exact Accepts.messageComplete

/-! ### What the codec holds afterwards -/

theorem setVersion_tracks (hTracks : Tracks a d) (p : Fields) : Tracks a (d.setVersion p) := by
  unfold setVersion chooseVersion
  split <;> exact { hTracks with }

/-- The header that is handed over is the line that is over. -/
theorem takeHeader_tracks (hTracks : Tracks a d) (hGot : d.gotHeader = true)
    (data : StructuredData) : Tracks a.flush (d.takeHeader data) := by
  have hPending : a.pending = true := hTracks.gotHeader ▸ hGot
  unfold Assembly.flush
  rw [if_neg (by simp [hPending])]
  split <;>
    exact { hTracks with gotHeader := rfl, key := rfl, value := rfl }

theorem flushTrailer_tracks (cb : Callbacks υ) (hTracks : Tracks a d) : Tracks a.flush (d.flushTrailer cb) := by
  rcases Bool.eq_false_or_eq_true d.gotHeader with hGot | hGot
  · have hPending : a.pending = true := hTracks.gotHeader ▸ hGot
    unfold Assembly.flush flushTrailer
    rw [if_pos hGot, if_neg (by simp [hPending])]
    split <;>
      exact { hTracks with gotHeader := rfl, key := rfl, value := rfl }
  · have hPending : a.pending = false := hTracks.gotHeader ▸ hGot
    rw [flush_idle hPending]
    unfold flushTrailer
    rw [if_neg (by simp [hGot])]
    exact hTracks

theorem announceHeaders_tracks (cb : Callbacks υ) (hTracks : Tracks a d) (p : Fields) :
    Tracks { a with framing := some p } (d.announceHeaders cb p) :=
  { hTracks with headersCompleted := rfl }

theorem reset_tracks (done : List Spelled) (misplaced : Bool) :
    Tracks { done := done, misplaced := misplaced } d.reset where
  installed := rfl
  headersCompleted := rfl
  ignore := rfl
  gotHeader := rfl
  key := rfl
  value := rfl
  urline := rfl
  status := rfl
  url := fun f => by cases f <;> exact Nat.zero_le _

theorem tracks_misplaced (hTracks : Tracks a d) (b : Bool) : Tracks { a with misplaced := b } d :=
  { hTracks with }

theorem Accepts.tracks {c : Callback} (hTracks : Tracks a d) (h : Accepts cb d c e) :
    Tracks (assembler.next a c) e := by
  cases h with
  | messageBegin hBegin => exact { hTracks with installed := rfl }
  | messageBeginAgain hBegin hInstalled => exact { hTracks with installed := hInstalled }
  | chunk hChunk =>
      have hIgnore := hTracks.ignore
      rename_i p c
      cases c with
      | messageBegin => exact absurd rfl hChunk
      | chunkHeader | chunkComplete =>
          exact { hTracks with ignore := by simp [Gatherer.next, Assembly.notify, hIgnore] }
  | url hInstalled hObject hData hUrl hLength =>
      have hUrline := hTracks.urline
      simp only [Gatherer.next, Assembly.data_url]
      exact { hTracks with
        urline := by simp [hUrline]
        url := hUrl hTracks.url }
  | status hInstalled hObject =>
      have hStatus := hTracks.status
      simp only [Gatherer.next, Assembly.data_status]
      exact { hTracks with status := by simp [hStatus] }
  | field hHeaders hGot =>
      have hPending : a.pending = false := hTracks.gotHeader ▸ hGot
      have hKey := hTracks.key
      simp only [Gatherer.next, Assembly.data_headerField, flush_idle hPending]
      exact { hTracks with key := by simp [hKey] }
  | nextField hHeaders hGot hInstalled hHeader =>
      rename_i bytes data
      have hTaken := takeHeader_tracks hTracks hGot data
      have hKey := hTaken.key
      simp only [Gatherer.next, Assembly.data_headerField]
      exact { tracks_misplaced hTaken (a.misplaced || !a.begun) with
        key := by
          simp only [← hKey]
          rfl }
  | trailerField hHeaders =>
      have hFlushed := flushTrailer_tracks cb hTracks
      have hKey := hFlushed.key
      simp only [Gatherer.next, Assembly.data_headerField]
      exact { tracks_misplaced hFlushed (a.misplaced || !a.begun) with key := by simp [hKey] }
  | value =>
      have hValue := hTracks.value
      simp only [Gatherer.next, Assembly.data_headerValue]
      exact { hTracks with gotHeader := rfl, value := by simp [hValue] }
  | ignored hIgnore =>
      simp only [Gatherer.next, Assembly.data_body]
      exact { hTracks with }
  | body hIgnore =>
      simp only [Gatherer.next, Assembly.data_body]
      exact { hTracks with }
  | headersComplete hMajor hInstalled hGot =>
      rename_i p
      have hPending : a.pending = false := hTracks.gotHeader ▸ hGot
      have hSet := announceHeaders_tracks cb (setVersion_tracks hTracks p) p
      simp only [Gatherer.next, assembler, Assembly.headersComplete, flush_idle hPending]
      exact tracks_misplaced hSet _
  | lastHeader hMajor hInstalled hGot hHeader =>
      rename_i p data
      have hGot' : (d.setVersion p).gotHeader = true := by
        unfold setVersion chooseVersion
        split <;> exact hGot
      have hTaken := takeHeader_tracks (setVersion_tracks hTracks p) hGot' data
      have hSet := announceHeaders_tracks cb hTaken p
      exact tracks_misplaced hSet _
  | messageComplete => exact reset_tracks _ _

end Impl

end Doormat.Http
