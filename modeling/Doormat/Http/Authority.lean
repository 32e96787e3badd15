import Doormat.Library.Combine
import Doormat.Http.Independence
import Doormat.Http.Mutation

/-! Where a request is to go, if its target does not tell: `on_headers_complete` splits the
value of the `host` header at its first colon. -/
namespace Doormat.Http

open Bytes Doormat.Parser

/-! ### The values of `host` -/

/-- The characters of a registered name. -/
def isRegNameChar (c : UInt8) : Bool :=
  isAlphanum c || (ofString "-._~%!$&'()*+,;=").contains c

/-- The characters of an address of version 6. -/
def isIpv6Char (c : UInt8) : Bool := isHex c || c = ':'.toUInt8 || c = '.'.toUInt8

/-- `uri-host`. An address of version 4 is written as registered names are, and one of
version 6 in brackets, and with colons. -/
inductive UriHost
  | regName (name : ByteString) (h : ∀ c ∈ name, isRegNameChar c = true)
  | ipv6 (address : ByteString) (h : ∀ c ∈ address, isIpv6Char c = true)
      (hColon : ':'.toUInt8 ∈ address)

namespace UriHost

/-- The host as a `host` header writes it. -/
def bytes : UriHost → ByteString
  | regName name _ => name
  | ipv6 address _ _ => '['.toUInt8 :: (address ++ [']'.toUInt8])

/-- The host without brackets, as `http_parser_parse_url` gives it. -/
def inner : UriHost → ByteString
  | regName name _ => name
  | ipv6 address _ _ => address

def isLiteral : UriHost → Bool
  | regName _ _ => false
  | ipv6 _ _ _ => true

end UriHost

/-- `uri-host [":" port]`. -/
structure HostValue where
  host : UriHost
  port : Option { digits : ByteString // ∀ c ∈ digits, isNum c = true }

/-- The value of the header. -/
def HostValue.bytes (v : HostValue) : ByteString :=
  v.host.bytes ++ match v.port with
    | none => []
    | some digits => ':'.toUInt8 :: digits.val

/-- What the request should hold: the host part, with its brackets or without, and the digits
of the port, or the port from before. -/
def HostValue.Told (v : HostValue) (port : ByteString) (r : HttpRequest) : Prop :=
  (r.urihost = v.host.bytes ∨ r.urihost = v.host.inner) ∧
    r.port = match v.port with
      | none => port
      | some digits => digits.val

theorem isRegNameChar_ne_colon {c : UInt8} (h : isRegNameChar c = true) : c ≠ ':'.toUInt8 := by
  rintro rfl
  revert h
  decide +kernel

/-- What comes before the first colon, and what after it. -/
theorem split_at_colon {front : ByteString} (back : ByteString) (hFront : ∀ c ∈ front, c ≠ ':'.toUInt8) :
    (front ++ ':'.toUInt8 :: back).takeWhile (· ≠ ':'.toUInt8) = front ∧
      ((front ++ ':'.toUInt8 :: back).dropWhile (· ≠ ':'.toUInt8)).tail = back := by
  have hAll : ∀ c ∈ front, decide (c ≠ ':'.toUInt8) = true := fun c hc => decide_eq_true (hFront c hc)
  constructor
  · rw [List.takeWhile_append_of_pos hAll, List.takeWhile_cons_of_neg (by simp), List.append_nil]
  · rw [List.dropWhile_append_of_pos hAll, List.dropWhile_cons_of_neg (by simp), List.tail_cons]

variable {r : HttpRequest}

theorem hostFromHeader_colon {front back : ByteString} (hTarget : r.urihost = [])
    (hFront : ∀ c ∈ front, c ≠ ':'.toUInt8)
    (hHeader : r.getHeader hfHost = front ++ ':'.toUInt8 :: back) :
    Impl.hostFromHeader r = { r with urihost := front, port := back } := by
  obtain ⟨hBefore, hAfter⟩ := split_at_colon back hFront
  have hColon : (front ++ ':'.toUInt8 :: back).contains ':'.toUInt8 = true := by simp
  rw [Impl.hostFromHeader, if_neg (by simp [hTarget]), hHeader]
  dsimp only
  rw [if_pos hColon, hBefore, hAfter]

theorem hostFromHeader_plain (hTarget : r.urihost = [])
    (hHeader : ∀ c ∈ r.getHeader hfHost, c ≠ ':'.toUInt8) :
    Impl.hostFromHeader r = { r with urihost := r.getHeader hfHost } := by
  have hColon : ¬ (r.getHeader hfHost).contains ':'.toUInt8 = true := by
    simp only [List.contains_iff_mem]
    exact fun hMem => hHeader _ hMem rfl
  rw [Impl.hostFromHeader, if_neg (by simp [hTarget])]
  dsimp only
  rw [if_neg hColon]

/-- Whatever the header holds, the host that is taken from it has no colon. -/
theorem hostFromHeader_ne_colon (hTarget : r.urihost = []) :
    ∀ c ∈ (Impl.hostFromHeader r).urihost, c ≠ ':'.toUInt8 := by
  intro c hMem
  rw [Impl.hostFromHeader, if_neg (by simp [hTarget])] at hMem
  dsimp only at hMem
  split at hMem
  · have hBefore : c ∈ (r.getHeader hfHost).takeWhile (· ≠ ':'.toUInt8) := hMem
    simpa using List.mem_takeWhile_imp hBefore
  case isFalse hNone =>
    rintro rfl
    exact hNone (List.contains_iff_mem.mpr hMem)

/-- The request is told its host and its port exactly if the host is not in brackets. -/
theorem told_iff (v : HostValue) (hTarget : r.urihost = []) (hHeader : r.getHeader hfHost = v.bytes) :
    v.Told r.port (Impl.hostFromHeader r) ↔ v.host.isLiteral = false := by
  rcases v with ⟨host, port⟩
  cases host with
  | regName name hChars =>
      have hName : ∀ c ∈ name, c ≠ ':'.toUInt8 := fun c hc => isRegNameChar_ne_colon (hChars c hc)
      have hTold : HostValue.Told ⟨.regName name hChars, port⟩ r.port (Impl.hostFromHeader r) := by
        cases port with
        | none =>
            have hPlain : r.getHeader hfHost = name := by
              rw [hHeader]
              exact List.append_nil name
            rw [hostFromHeader_plain hTarget (hPlain ▸ hName), hPlain]
            exact ⟨.inl rfl, rfl⟩
        | some digits =>
            rw [hostFromHeader_colon hTarget hName hHeader]
            exact ⟨.inl rfl, rfl⟩
      exact ⟨fun _ => rfl, fun _ => hTold⟩
  | ipv6 address hChars hColon =>
      constructor
      · intro hTold
        have hNone := hostFromHeader_ne_colon hTarget
        exfalso
        cases hTold.1 with
        | inl hBrackets =>
            refine hNone ':'.toUInt8 ?_ rfl
            rw [hBrackets]
            exact List.mem_cons_of_mem _ (List.mem_append_left _ hColon)
        | inr hInner =>
            refine hNone ':'.toUInt8 ?_ rfl
            rw [hInner]
            exact hColon
      · nofun

/-! ### The header lines -/

/-- The callbacks for header lines, the names and values of which may come in pieces. -/
inductive Spells : List Callback → List (ByteString × ByteString) → Prop
  | nil : Spells [] []
  | line {cs : List Callback} {lines : List (ByteString × ByteString)} (names values : List ByteString)
      (hNames : names ≠ []) (hValues : values ≠ []) (h : Spells cs lines) :
      Spells (names.map (.data 0 .headerField) ++ values.map (.data 0 .headerValue) ++ cs)
        ((names.flatten, values.flatten) :: lines)

namespace StructuredData

theorem getHeader_eq_head? (d : StructuredData) (key : ByteString) :
    d.getHeader key = (d.getHeaders key).head?.getD [] := by
  rw [getHeader, Multimap.find?_eq_head?]
  rfl

theorem storeHeader_host (d : StructuredData) {key : ByteString} (value : ByteString) :
    (d.storeHeader key value).getHeaders hfHost =
      if key = hfHost then [value] else d.getHeaders hfHost := by
  have hCoding : hfTransferEncoding ≠ hfHost := by decide
  have hLength : hfContentLen ≠ hfHost := by decide
  by_cases hHost : key = hfHost
  · subst hHost
    have hSingle : hfHost ∈ singleValued := by decide
    rw [storeHeader, if_pos hSingle, getHeaders_insertHeader_self, getHeaders_removeHeader_self, if_pos rfl]
    rfl
  · rw [if_neg hHost, storeHeader]
    split
    · rw [getHeaders_insertHeader_of_ne _ _ hHost, getHeaders_removeHeader_of_ne _ hHost]
    split
    · rw [getHeaders_insertHeader_of_ne _ _ hHost, getHeaders_removeHeader_of_ne _ hLength,
        getHeaders_removeHeader_of_ne _ hCoding]
      rfl
    · exact getHeaders_insertHeader_of_ne _ _ hHost

/-- The last `host` that is set counts. -/
theorem header_host {d d' : StructuredData} {key value : ByteString} (h : d.header key value = .ok d') :
    d'.getHeaders hfHost = if lower key = hfHost then [value] else d.getHeaders hfHost := by
  unfold header at h
  split at h
  case isTrue hKey =>
    have hLength : hfContentLen ≠ hfHost := by decide
    obtain ⟨n, -, hOk⟩ := bind_eq_ok.mp h
    cases hOk
    rw [hKey, if_neg hLength, getHeaders_insertHeader_of_ne _ _ hLength,
      getHeaders_removeHeader_of_ne _ hLength]
    rfl
  case isFalse =>
    cases h
    exact storeHeader_host d value

theorem setProtocol_host (d : StructuredData) (v : ProtoVersion) :
    (d.setProtocol v).getHeaders hfHost = d.getHeaders hfHost := by
  have hConnection : hfConnection ≠ hfHost := by decide
  have hRemoved : (d.removeHeader hfConnection).getHeaders hfHost = d.getHeaders hfHost :=
    d.getHeaders_removeHeader_of_ne hConnection
  unfold setProtocol
  split
  · rfl
  dsimp only
  split
  · cases v with
    | HTTP10 =>
        have hStored : _ = if hfConnection = hfHost then _ else _ :=
          storeHeader_host (({ d with protocolVersion := .HTTP10 } : StructuredData).removeHeader
            hfConnection) hvConnectionClose
        rw [if_neg hConnection] at hStored
        exact hStored.trans hRemoved
    | _ => exact hRemoved
  · rfl

end StructuredData

/-! ### The codec at the header lines -/

variable {υ : Type} {cb : Callbacks υ} {d e : Impl υ}

/-- A codec at the headers of a request without authority in its target: the port and the host
that it holds, and the line at hand. -/
structure AtHeaders (port : ByteString) (stored : List ByteString) (got : Bool) (key value : ByteString) (d : Impl υ) :
    Prop where
  installed : d.installed = true
  incomplete : d.headersCompleted = false
  request : ∃ r, d.object = .request r ∧ r.urihost = [] ∧ r.port = port ∧
    r.getHeaders hfHost = stored
  got : d.gotHeader = got
  key : d.key = key
  value : d.value = value

namespace AtHeaders

variable {port key value bytes : ByteString} {stored : List ByteString} {got : Bool}

/-- The host once the line at hand is over. -/
def settledHost (stored : List ByteString) (got : Bool) (key value : ByteString) : List ByteString :=
  if got = true ∧ lower key = hfHost then [value] else stored

theorem processCurrentHeader (h : AtHeaders port stored got key value d) (hGot : got = true)
    (hRun : d.processCurrentHeader = .ok e) :
    AtHeaders port (settledHost stored got key value) false [] [] e := by
  have hPending : d.gotHeader = true := h.got.trans hGot
  obtain ⟨r, hObject, hTarget, hPort, hHost⟩ := h.request
  rcases Impl.processCurrentHeader_cases hPending with ⟨hNot, -⟩ | ⟨err, -, -, hFails⟩ | ⟨data, -, hHeader, hTaken⟩
  · rw [h.installed] at hNot
    cases hNot
  · rw [hFails] at hRun
    cases hRun
  · rw [hTaken] at hRun
    cases hRun
    rw [hObject, h.key, h.value] at hHeader
    have hData := StructuredData.header_host hHeader
    refine ⟨h.installed, h.incomplete, ⟨{ r with toStructuredData := data }, ?_, hTarget, hPort, ?_⟩, rfl, rfl, rfl⟩
    · show d.object.setData data = _
      rw [hObject]
      rfl
    · show data.getHeaders hfHost = _
      rw [hData, settledHost]
      by_cases hKey : lower key = hfHost
      · rw [if_pos hKey, if_pos ⟨hGot, hKey⟩]
      · rw [if_neg hKey, if_neg (fun hBoth => hKey hBoth.2)]
        exact hHost

/-- A piece of a name goes on with the name, or begins the next line. -/
theorem field (h : AtHeaders port stored got key value d) {code : Nat}
    (hApply : d.apply cb (.data code .headerField bytes) = .ok e) :
    AtHeaders port (settledHost stored got key value) false ((if got then [] else key) ++ bytes)
      (if got then [] else value) e := by
  have hCall := Impl.accept_eq_ok.mp hApply
  simp only [settings, Settings.data, h.incomplete, Bool.not_false, if_true, Impl.onHeaderField,
    Bool.false_eq_true, if_false] at hCall
  obtain ⟨f, hTaken, hEq⟩ := bind_eq_ok.mp hCall
  cases hEq
  cases got with
  | false =>
      rw [Impl.processCurrentHeader_idle h.got] at hTaken
      cases hTaken
      exact { h with key := congrArg (· ++ bytes) h.key, request := h.request }
  | true =>
      have hNext := h.processCurrentHeader rfl hTaken
      exact { hNext with key := congrArg (· ++ bytes) hNext.key }

theorem value_piece (h : AtHeaders port stored got key value d) {code : Nat}
    (hApply : d.apply cb (.data code .headerValue bytes) = .ok e) :
    AtHeaders port stored true key (value ++ bytes) e := by
  have hCall := Impl.accept_eq_ok.mp hApply
  simp only [settings, Settings.data, h.incomplete, Bool.not_false, if_true, Impl.onHeaderValue,
    Bool.false_eq_true, if_false] at hCall
  cases hCall
  exact { h with incomplete := rfl, got := rfl, value := congrArg (· ++ bytes) h.value }

theorem fields (h : AtHeaders port stored false key value d) {names : List ByteString}
    (hRun : d.replay cb (names.map (.data 0 .headerField)) = .ok e) :
    AtHeaders port stored false (key ++ names.flatten) value e := by
  induction names generalizing d key with
  | nil =>
      cases hRun
      simpa using h
  | cons name names ih =>
      obtain ⟨f, hApply, hRest⟩ := Impl.replay_cons_eq_ok.mp hRun
      have hNext := ih (h.field hApply) hRest
      simpa [settledHost] using hNext

theorem values (h : AtHeaders port stored got key value d) {pieces : List ByteString}
    (hRun : d.replay cb (pieces.map (.data 0 .headerValue)) = .ok e) (hGot : got = true ∨ pieces ≠ []) :
    AtHeaders port stored true key (value ++ pieces.flatten) e := by
  induction pieces generalizing d got value with
  | nil =>
      cases hRun
      obtain rfl : got = true := hGot.resolve_right (fun hNe => hNe rfl)
      simpa using h
  | cons piece pieces ih =>
      obtain ⟨f, hApply, hRest⟩ := Impl.replay_cons_eq_ok.mp hRun
      have hNext := ih (h.value_piece hApply) hRest (.inl rfl)
      simpa using hNext

/-- One line, in pieces. -/
theorem line (h : AtHeaders port stored got key value d) (hIdle : got = false → key = [] ∧ value = [])
    {names pieces : List ByteString} (hNames : names ≠ []) (hPieces : pieces ≠ [])
    (hRun : d.replay cb (names.map (.data 0 .headerField) ++ pieces.map (.data 0 .headerValue)) = .ok e) :
    AtHeaders port (settledHost stored got key value) true names.flatten pieces.flatten e := by
  obtain ⟨f, hFields, hValues⟩ := Impl.replay_append_eq_ok.mp hRun
  obtain ⟨name, more, rfl⟩ := List.exists_cons_of_ne_nil hNames
  obtain ⟨g, hApply, hRest⟩ := Impl.replay_cons_eq_ok.mp hFields
  have hFirst := h.field hApply
  have hEmpty : (if got then [] else key) = [] ∧ (if got then [] else value) = ([] : ByteString) := by
    cases got with
    | true => exact ⟨rfl, rfl⟩
    | false => exact hIdle rfl
  rw [hEmpty.1, hEmpty.2, List.nil_append] at hFirst
  have hAll := (hFirst.fields hRest).values hValues (.inr hPieces)
  simpa using hAll

/-- The host that the lines leave. -/
theorem lines {cs : List Callback} {headers : List (ByteString × ByteString)} (hSpells : Spells cs headers)
    (h : AtHeaders port stored got key value d) (hIdle : got = false → key = [] ∧ value = [])
    (hRun : d.replay cb cs = .ok e) :
    ∃ got' key' value' stored', AtHeaders port stored' got' key' value' e ∧
      settledHost stored' got' key' value' =
        headers.foldl (fun host line => if lower line.1 = hfHost then [line.2] else host)
          (settledHost stored got key value) := by
  induction hSpells generalizing d stored got key value with
  | nil =>
      cases hRun
      exact ⟨got, key, value, stored, h, rfl⟩
  | line names pieces hNames hPieces hSpells ih =>
      obtain ⟨f, hLine, hRest⟩ := Impl.replay_append_eq_ok.mp hRun
      have hNext := h.line hIdle hNames hPieces hLine
      obtain ⟨got', key', value', stored', hEnd, hHost⟩ := ih hNext nofun hRest
      refine ⟨got', key', value', stored', hEnd, ?_⟩
      rw [hHost, List.foldl_cons]
      simp [settledHost]

theorem setVersion (h : AtHeaders port stored got key value d) (p : Fields) :
    AtHeaders port stored got key value (d.setVersion p) := by
  obtain ⟨r, hObject, hTarget, hPort, hHost⟩ := h.request
  have hSame : (d.chooseVersion p).installed = d.installed ∧
      (d.chooseVersion p).headersCompleted = d.headersCompleted ∧
      (d.chooseVersion p).gotHeader = d.gotHeader ∧ (d.chooseVersion p).key = d.key ∧
      (d.chooseVersion p).value = d.value := by
    unfold Impl.chooseVersion
    split
    · exact ⟨rfl, rfl, rfl, rfl, rfl⟩
    · exact ⟨rfl, rfl, rfl, rfl, rfl⟩
  obtain ⟨hInstalled, hIncomplete, hGot, hKey, hValue⟩ := hSame
  refine ⟨hInstalled.trans h.installed, hIncomplete.trans h.incomplete, ?_, hGot.trans h.got,
    hKey.trans h.key, hValue.trans h.value⟩
  refine ⟨{ r with toStructuredData := r.toStructuredData.setProtocol (d.chooseVersion p).version }, ?_,
    hTarget, hPort, (StructuredData.setProtocol_host _ _).trans hHost⟩
  show d.object.setData (d.object.data.setProtocol (d.chooseVersion p).version) = _
  rw [hObject]
  rfl

/-- The request that is announced. -/
theorem complete (h : AtHeaders port stored got key value d) {p : Fields}
    (hApply : d.apply cb (.headersComplete p) = .ok e) :
    ∃ r r', e.trace.getLast? = some (.headersDone p (.request r')) ∧ r.urihost = [] ∧ r.port = port ∧
      r.getHeaders hfHost = settledHost stored got key value ∧
      r'.urihost = (Impl.hostFromHeader r).urihost ∧ r'.port = (Impl.hostFromHeader r).port := by
  have hCall : d.onHeadersComplete cb p = .ok (0, e) := Impl.accept_eq_ok.mp hApply
  have hMajor : p.httpMajor = 1 := by
    by_contra hNot
    rw [Impl.onHeadersComplete, if_pos hNot] at hCall
    cases hCall
  rw [Beside.onHeadersComplete_eq hMajor] at hCall
  obtain ⟨m, -, hCall⟩ := bind_eq_ok.mp hCall
  obtain ⟨f, hTaken, hCall⟩ := bind_eq_ok.mp hCall
  cases hCall
  have hSettled : ∃ got' key' value', AtHeaders port (settledHost stored got key value) got' key' value' f := by
    cases got with
    | true => exact ⟨_, _, _, (h.setVersion p).processCurrentHeader rfl hTaken⟩
    | false =>
        rw [Impl.processCurrentHeader_idle (h.setVersion p).got] at hTaken
        cases hTaken
        exact ⟨_, _, _, h.setVersion p⟩
  obtain ⟨got', key', value', hEnd⟩ := hSettled
  obtain ⟨r, hObject, hTarget, hPort, hHost⟩ := hEnd.request
  let r₁ : HttpRequest := Impl.hostFromHeader { r with method := p.method }
  let r' : HttpRequest := { r₁ with toStructuredData := r₁.toStructuredData.setKeepalive p.shouldKeepAlive }
  refine ⟨{ r with method := p.method }, r', ?_, hTarget, hPort, hHost, ?_, ?_⟩
  · show (f.trace ++ [Event.headersDone p (Impl.completeHeaders p f.object)]).getLast? = _
    rw [List.getLast?_concat, hObject]
    rfl
  · rfl
  · rfl

end AtHeaders

/-! ### What an announced request is told -/

/-- A codec that has read the request line of a request without authority in its target, and
no header yet. -/
structure AfterTarget (r : HttpRequest) (d : Impl υ) : Prop where
  installed : d.installed = true
  incomplete : d.headersCompleted = false
  idle : d.gotHeader = false ∧ d.key = [] ∧ d.value = []
  object : d.object = .request r
  target : r.urihost = []

/-- The values of the `host` lines. -/
def hostsIn (lines : List (ByteString × ByteString)) : List ByteString :=
  (lines.filter fun line => lower line.1 = hfHost).map Prod.snd

theorem foldl_host (lines : List (ByteString × ByteString)) (stored : List ByteString) :
    lines.foldl (fun host line => if lower line.1 = hfHost then [line.2] else host) stored =
      match (hostsIn lines).getLast? with
      | none => stored
      | some value => [value] := by
  induction lines generalizing stored with
  | nil => rfl
  | cons line lines ih =>
      rw [List.foldl_cons, ih]
      by_cases hKey : lower line.1 = hfHost
      · have hHosts : hostsIn (line :: lines) = line.2 :: hostsIn lines := by
          simp [hostsIn, hKey]
        rw [hHosts, List.getLast?_cons, if_pos hKey]
        cases (hostsIn lines).getLast? with
        | none => rfl
        | some value => rfl
      · have hHosts : hostsIn (line :: lines) = hostsIn lines := by
          simp [hostsIn, hKey]
        rw [hHosts, if_neg hKey]

/-- However the header lines come in, and wherever the `host` is among them, the announced
request is told its host and its port exactly if the host is not in brackets. -/
theorem authority_told_iff {r : HttpRequest} (hTarget : AfterTarget r d) {cs : List Callback}
    {lines : List (ByteString × ByteString)} (hSpells : Spells cs lines) (v : HostValue)
    (hHost : (hostsIn lines).getLast? = some v.bytes)
    {p : Fields} (hRun : d.replay cb (cs ++ [.headersComplete p]) = .ok e) :
    (∃ r', e.trace.getLast? = some (.headersDone p (.request r')) ∧ v.Told r.port r') ↔
      v.host.isLiteral = false := by
  obtain ⟨f, hLines, hComplete⟩ := Impl.replay_append_eq_ok.mp hRun
  obtain ⟨g, hApply, hNil⟩ := Impl.replay_cons_eq_ok.mp hComplete
  cases hNil
  obtain ⟨hGot, hKey, hValue⟩ := hTarget.idle
  have hStart : AtHeaders r.port (r.getHeaders hfHost) false [] [] d :=
    ⟨hTarget.installed, hTarget.incomplete, ⟨r, hTarget.object, hTarget.target, rfl, rfl⟩, hGot, hKey, hValue⟩
  obtain ⟨got', key', value', stored', hEnd, hStored⟩ := hStart.lines hSpells (fun _ => ⟨rfl, rfl⟩) hLines
  rw [foldl_host, hHost] at hStored
  obtain ⟨r₁, r', hAnnounced, hNone, hPort, hHeaders, hHostEq, hPortEq⟩ := hEnd.complete hApply
  have hHeader : r₁.getHeader hfHost = v.bytes := by
    rw [StructuredData.getHeader_eq_head?, hHeaders, hStored]
    rfl
  have hTold := told_iff v hNone hHeader
  rw [hPort] at hTold
  rw [← hTold]
  have hSame : v.Told r.port r' ↔ v.Told r.port (Impl.hostFromHeader r₁) := by
    unfold HostValue.Told
    rw [hHostEq, hPortEq]
  constructor
  · intro ⟨r'', hLast, hTold'⟩
    rw [hAnnounced] at hLast
    cases hLast
    exact hSame.mp hTold'
  · intro hTold'
    exact ⟨r', hAnnounced, hSame.mpr hTold'⟩

/-- A codec that has read `GET / HTTP/1.1`. -/
def afterGet : Impl Unit :=
  { Impl.init (.request { HttpRequest.fresh with path := slash }) () with installed := true }

theorem afterGet_afterTarget : AfterTarget { HttpRequest.fresh with path := slash } afterGet :=
  ⟨rfl, rfl, ⟨rfl, rfl, rfl⟩, rfl, rfl⟩

/-- `example.com:8080`. -/
def exampleHost : HostValue where
  host := .regName (ofString "example.com") (by decide +kernel)
  port := some ⟨ofString "8080", by decide +kernel⟩

/-- The header `Host: example.com:8080`, with a value that comes in two pieces, and one more. -/
def exampleCallbacks : List Callback :=
  [.data 0 .headerField (ofString "Host"), .data 0 .headerValue (ofString "example.com:"),
    .data 0 .headerValue (ofString "8080"), .data 0 .headerField (ofString "Accept"),
    .data 0 .headerValue (ofString "*/*")]

theorem exampleCallbacks_spells : Spells exampleCallbacks
    [(ofString "Host", ofString "example.com:8080"), (ofString "Accept", ofString "*/*")] := by
  have hAccept := Spells.line [ofString "Accept"] [ofString "*/*"] (List.cons_ne_nil _ _)
    (List.cons_ne_nil _ _) .nil
  exact .line [ofString "Host"] [ofString "example.com:", ofString "8080"] (List.cons_ne_nil _ _)
    (List.cons_ne_nil _ _) hAccept

theorem authority_told_iff_example :
    ∃ e, afterGet.replay handing (exampleCallbacks ++
        [.headersComplete { fresh.toFields with httpMajor := 1, httpMinor := 1 }]) = .ok e ∧
      ∃ r', e.trace.getLast? = some (.headersDone { fresh.toFields with httpMajor := 1, httpMinor := 1 }
        (.request r')) ∧ exampleHost.Told [] r' := by
  have hSome : (afterGet.replay handing (exampleCallbacks ++
      [.headersComplete { fresh.toFields with httpMajor := 1, httpMinor := 1 }])).toOption.isSome = true := by
    decide +kernel
  obtain ⟨e, hEq⟩ := Option.isSome_iff_exists.mp hSome
  have hRun : afterGet.replay handing (exampleCallbacks ++
      [.headersComplete { fresh.toFields with httpMajor := 1, httpMinor := 1 }]) = .ok e := by
    revert hEq
    cases afterGet.replay handing (exampleCallbacks ++
      [.headersComplete { fresh.toFields with httpMajor := 1, httpMinor := 1 }]) with
    | error f => nofun
    | ok e' =>
        intro hEq
        exact congrArg Except.ok (Option.some.inj hEq)
  refine ⟨e, hRun, ?_⟩
  exact (authority_told_iff afterGet_afterTarget exampleCallbacks_spells exampleHost rfl hRun).mpr rfl

/-- `[::1]:80`. -/
def loopback : HostValue where
  host := .ipv6 (ofString "::1") (by decide +kernel) (by decide +kernel)
  port := some ⟨ofString "80", by decide +kernel⟩

/-- The host and the port of the requests that are announced. -/
def authorities (es : List Event) : List (Option (ByteString × ByteString)) :=
  (announcements es).map fun x => match x.2 with
    | .request r => some (r.urihost, r.port)
    | .response _ => none

/-- A request for `[::1]:80` is announced with the host `[` and the port `:1]:80`. -/
theorem loopback_misread :
    ∃ c p r, (HttpCodec.init (.request .fresh) ()).decode handing
        (ofString "GET / HTTP/1.1\r\nhost: " ++ loopback.bytes ++ ofString "\r\n\r\n") = .ok (c, true) ∧
      announcements c.impl.trace = [(p, .request r)] ∧ ¬ loopback.Told [] r := by
  have hRead : (match (HttpCodec.init (.request .fresh) ()).decode handing
        (ofString "GET / HTTP/1.1\r\nhost: " ++ loopback.bytes ++ ofString "\r\n\r\n") with
      | .error _ => false
      | .ok (c, ok) => ok && decide (authorities c.impl.trace = [some (ofString "[", ofString ":1]:80")])) =
        true := by
    decide +kernel
  rcases hDecode : (HttpCodec.init (.request .fresh) ()).decode handing
    (ofString "GET / HTTP/1.1\r\nhost: " ++ loopback.bytes ++ ofString "\r\n\r\n") with f | ⟨c, ok⟩
  · rw [hDecode] at hRead
    cases hRead
  · rw [hDecode] at hRead
    simp only [Bool.and_eq_true, decide_eq_true_eq] at hRead
    obtain ⟨rfl, hAuthorities⟩ := hRead
    obtain ⟨⟨p, m⟩, hAnnounced, hEq⟩ := List.map_eq_singleton_iff.mp hAuthorities
    cases m with
    | response r => cases hEq
    | request r =>
        refine ⟨c, p, r, rfl, hAnnounced, ?_⟩
        intro hTold
        have hPort : r.port = ofString ":1]:80" := (Prod.mk.inj (Option.some.inj hEq)).2
        have hWanted := hTold.2
        rw [hPort] at hWanted
        revert hWanted
        decide +kernel

end Doormat.Http
