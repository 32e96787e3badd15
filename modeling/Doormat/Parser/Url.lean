import Doormat.Parser.Basic
import Doormat.Parser.Characters

/-! The URL half of `http_parser.c`: the character transitions that the message
parser shares with `http_parser_parse_url`, and that function itself. -/
namespace Doormat.Parser

open Bytes

/-- `parse_url_char`. A byte that cannot continue the URL gives `dead`. -/
def parseUrlChar (s : State) (ch : UInt8) : State :=
  if ch = SP ∨ ch = CR ∨ ch = LF then .dead
  else if ch = HT ∨ ch = 12 then .dead
  else match s with
    | .reqSpacesBeforeUrl =>
        if ch = '/'.toUInt8 ∨ ch = '*'.toUInt8 then .reqPath
        else if isAlpha ch then .reqSchema
        else .dead
    | .reqSchema =>
        if isAlpha ch then .reqSchema
        else if ch = ':'.toUInt8 then .reqSchemaSlash
        else .dead
    | .reqSchemaSlash => if ch = '/'.toUInt8 then .reqSchemaSlashSlash else .dead
    | .reqSchemaSlashSlash => if ch = '/'.toUInt8 then .reqServerStart else .dead
    | .reqServerWithAt => if ch = '@'.toUInt8 then .dead else server ch
    | .reqServerStart | .reqServer => server ch
    | .reqPath =>
        if isUrlChar ch then .reqPath
        else if ch = '?'.toUInt8 then .reqQueryStringStart
        else if ch = '#'.toUInt8 then .reqFragmentStart
        else .dead
    | .reqQueryStringStart | .reqQueryString =>
        if isUrlChar ch then .reqQueryString
        else if ch = '?'.toUInt8 then .reqQueryString
        else if ch = '#'.toUInt8 then .reqFragmentStart
        else .dead
    | .reqFragmentStart =>
        if isUrlChar ch then .reqFragment
        else if ch = '?'.toUInt8 then .reqFragment
        else if ch = '#'.toUInt8 then .reqFragmentStart
        else .dead
    | .reqFragment =>
        if isUrlChar ch then .reqFragment
        else if ch = '?'.toUInt8 ∨ ch = '#'.toUInt8 then .reqFragment
        else .dead
    | _ => .dead
where
  /-- The cases `s_req_server_start` and `s_req_server`, also reached from
  `s_req_server_with_at` by falling through. -/
  server (ch : UInt8) : State :=
    if ch = '/'.toUInt8 then .reqPath
    else if ch = '?'.toUInt8 then .reqQueryStringStart
    else if ch = '@'.toUInt8 then .reqServerWithAt
    else if isUserinfoChar ch || ch = '['.toUInt8 || ch = ']'.toUInt8 then .reqServer
    else .dead

/-- `enum http_parser_url_fields`. -/
inductive UrlFields
  | schema | host | port | path | query | fragment | userinfo
deriving DecidableEq, Repr

/-- One entry of `field_data`, with its bit of `field_set`. -/
structure FieldData where
  off : Nat := 0
  len : Nat := 0
  isSet : Bool := false
deriving DecidableEq, Repr

/-- `struct http_parser_url`; all fields zero is `http_parser_url_init`. The
offsets are 16-bit in the source, and the codec passes at most 8192 bytes. -/
structure HttpParserUrl where
  port : Nat := 0
  schema : FieldData := {}
  host : FieldData := {}
  portField : FieldData := {}
  path : FieldData := {}
  query : FieldData := {}
  fragment : FieldData := {}
  userinfo : FieldData := {}
deriving DecidableEq, Repr

namespace HttpParserUrl

def field (u : HttpParserUrl) : UrlFields → FieldData
  | .schema => u.schema
  | .host => u.host
  | .port => u.portField
  | .path => u.path
  | .query => u.query
  | .fragment => u.fragment
  | .userinfo => u.userinfo

def setField (u : HttpParserUrl) (f : UrlFields) (d : FieldData) : HttpParserUrl :=
  match f with
  | .schema => { u with schema := d }
  | .host => { u with host := d }
  | .port => { u with portField := d }
  | .path => { u with path := d }
  | .query => { u with query := d }
  | .fragment => { u with fragment := d }
  | .userinfo => { u with userinfo := d }

/-- `u->port = u->field_set = 0`. Offsets and lengths of an earlier call stay. -/
def clearSet (u : HttpParserUrl) : HttpParserUrl where
  port := 0
  schema := { u.schema with isSet := false }
  host := { u.host with isSet := false }
  portField := { u.portField with isSet := false }
  path := { u.path with isSet := false }
  query := { u.query with isSet := false }
  fragment := { u.fragment with isSet := false }
  userinfo := { u.userinfo with isSet := false }

/-- `++field_data[f].len`. -/
def extend (u : HttpParserUrl) (f : UrlFields) : HttpParserUrl :=
  u.setField f { u.field f with len := (u.field f).len + 1 }

/-- A field begins at offset `off` with its first byte. -/
def start (u : HttpParserUrl) (f : UrlFields) (off : Nat) : HttpParserUrl :=
  u.setField f { off := off, len := 1, isSet := true }

/-- No field begins after the offset `n`. -/
def Within (u : HttpParserUrl) (n : Nat) : Prop := ∀ f, (u.field f).off ≤ n

theorem Within.setField {u : HttpParserUrl} {n : Nat} (h : u.Within n) (f : UrlFields)
    {d : FieldData} (hOff : d.off ≤ n) : (u.setField f d).Within n := by
  intro g
  have hg := h g
  cases f <;> cases g <;> first | exact hOff | exact hg

theorem Within.clearSet {u : HttpParserUrl} {n : Nat} (h : u.Within n) : u.clearSet.Within n := by
  intro g
  have hg := h g
  cases g <;> exact hg

theorem Within.extend {u : HttpParserUrl} {n : Nat} (h : u.Within n) (f : UrlFields) :
    (u.extend f).Within n :=
  h.setField f (h f)

theorem Within.start {u : HttpParserUrl} {n : Nat} (h : u.Within n) (f : UrlFields) {off : Nat}
    (hOff : off ≤ n) : (u.start f off).Within n :=
  h.setField f hOff

theorem Within.mono {u : HttpParserUrl} {n m : Nat} (h : u.Within n) (hLe : n ≤ m) : u.Within m :=
  fun f => (h f).trans hLe

end HttpParserUrl

/-- `enum http_host_state`. -/
inductive HostState
  | dead
  | userinfoStart | userinfo
  | hostStart | hostV6Start | host | hostV6 | hostV6End | hostV6ZoneStart | hostV6Zone
  | portStart | port
deriving DecidableEq, Repr

/-- `http_parse_host_char`. -/
def httpParseHostChar (s : HostState) (ch : UInt8) : HostState :=
  match s with
  | .userinfo | .userinfoStart =>
      if ch = '@'.toUInt8 then .hostStart
      else if isUserinfoChar ch then .userinfo
      else .dead
  | .hostStart =>
      if ch = '['.toUInt8 then .hostV6Start
      else if isHostChar ch then .host
      else .dead
  | .host =>
      if isHostChar ch then .host
      else if ch = ':'.toUInt8 then .portStart
      else .dead
  | .hostV6End => if ch = ':'.toUInt8 then .portStart else .dead
  | .hostV6 =>
      if ch = ']'.toUInt8 then .hostV6End
      else if isHex ch || ch = ':'.toUInt8 || ch = '.'.toUInt8 then .hostV6
      else if ch = '%'.toUInt8 then .hostV6ZoneStart
      else .dead
  | .hostV6Start =>
      if isHex ch || ch = ':'.toUInt8 || ch = '.'.toUInt8 then .hostV6 else .dead
  | .hostV6Zone => if ch = ']'.toUInt8 then .hostV6End else zone ch
  | .hostV6ZoneStart => zone ch
  | .port | .portStart => if isNum ch then .port else .dead
  | .dead => .dead
where
  zone (ch : UInt8) : HostState :=
    if isAlphanum ch || (ofString "%.-_~").contains ch then .hostV6Zone else .dead

/-- The body of the loop of `http_parse_host`, for the byte at offset `off`. -/
def httpParseHostStep (u : HttpParserUrl) (s new : HostState) (off : Nat) : HttpParserUrl :=
  match new with
  | .host => hostByte (s = .host)
  | .hostV6 => hostByte (s = .hostV6)
  | .hostV6ZoneStart | .hostV6Zone => u.extend .host
  | .port => if s = .port then u.extend .port else u.start .port off
  | .userinfo => if s = .userinfo then u.extend .userinfo else u.start .userinfo off
  | _ => u
where
  hostByte (same : Bool) : HttpParserUrl :=
    if same then u.extend .host
    else (u.setField .host { u.host with off := off }).extend .host

/-- The loop of `http_parse_host` and the check of the state it ends in. The
result tells whether the host was accepted. -/
def httpParseHostLoop (u : HttpParserUrl) (s : HostState) (off : Nat) :
    ByteString → HttpParserUrl × Bool
  | [] => (u, match s with
      | .hostStart | .hostV6Start | .hostV6 | .hostV6ZoneStart | .hostV6Zone
      | .portStart | .userinfo | .userinfoStart => false
      | _ => true)
  | ch :: rest =>
      match httpParseHostChar s ch with
      | .dead => (u, false)
      | new => httpParseHostLoop (httpParseHostStep u s new off) new (off + 1) rest

/-- `http_parse_host`. -/
def httpParseHost (buf : ByteString) (u : HttpParserUrl) (foundAt : Bool) :
    HttpParserUrl × Bool :=
  httpParseHostLoop (u.setField .host { u.host with len := 0 })
    (if foundAt then .userinfoStart else .hostStart) u.host.off
    ((buf.drop u.host.off).take u.host.len)

/-- The field that `http_parser_parse_url` is in after a character: `none` when
the character is a delimiter to skip. -/
def urlFieldOf : State → Option UrlFields
  | .reqSchema => some .schema
  | .reqServerWithAt | .reqServer => some .host
  | .reqPath => some .path
  | .reqQueryString => some .query
  | .reqFragment => some .fragment
  | _ => none

/-- The loop of `http_parser_parse_url`; the last component is `found_at`, or
`none` when a character was rejected. -/
def parseUrlLoop (u : HttpParserUrl) (s : State) (oldUf : Option UrlFields) (foundAt : Bool)
    (off : Nat) : ByteString → HttpParserUrl × Option Bool
  | [] => (u, some foundAt)
  | ch :: rest =>
      let s := parseUrlChar s ch
      if s = .dead then (u, none)
      else
        let foundAt := foundAt || s = .reqServerWithAt
        match urlFieldOf s with
        | none => parseUrlLoop u s oldUf foundAt (off + 1) rest
        | some uf =>
            if oldUf = some uf then
              parseUrlLoop (u.extend uf) s oldUf foundAt (off + 1) rest
            else
              parseUrlLoop (u.start uf off) s (some uf) foundAt (off + 1) rest

/-- `strtoul(buf + off, NULL, 10)` on an already validated port. Digits past the
end of `buf` are not modelled: where the codec calls this, the byte after `buf`
is the space or line end that closes the target, or lies past the read buffer. -/
def portNumber (buf : ByteString) (off : Nat) : Nat :=
  decimal ((buf.drop off).takeWhile isDigit)

/-- `http_parser_parse_url`: the record it leaves, and whether it returned zero.
A record left by a failed call still carries the offsets found so far. -/
def httpParserParseUrl (buf : ByteString) (isConnect : Bool) (u : HttpParserUrl) :
    HttpParserUrl × Bool :=
  let start := if isConnect then State.reqServerStart else .reqSpacesBeforeUrl
  match parseUrlLoop u.clearSet start none false 0 buf with
  | (u, none) => (u, false)
  | (u, some foundAt) =>
      if u.schema.isSet && !u.host.isSet then (u, false)
      else
        let (u, hostOk) := if u.host.isSet then httpParseHost buf u foundAt else (u, true)
        if !hostOk then (u, false)
        else if isConnect && !(u.host.isSet && u.portField.isSet && !u.schema.isSet &&
            !u.path.isSet && !u.query.isSet && !u.fragment.isSet && !u.userinfo.isSet) then
          (u, false)
        else if u.portField.isSet then
          let v := portNumber buf u.portField.off
          if v > 0xffff then (u, false) else ({ u with port := v }, true)
        else (u, true)

/-! ### Offsets -/

theorem httpParseHostStep_within {u : HttpParserUrl} {n off : Nat} (h : u.Within n) (hOff : off ≤ n)
    (s new : HostState) : (httpParseHostStep u s new off).Within n := by
  have hByte : ∀ same, (httpParseHostStep.hostByte u off same).Within n := by
    intro same
    unfold httpParseHostStep.hostByte
    split
    · exact h.extend .host
    · exact (h.setField .host hOff).extend .host
  unfold httpParseHostStep
  split
  · exact hByte _
  · exact hByte _
  · exact h.extend .host
  · exact h.extend .host
  · split
    · exact h.extend .port
    · exact h.start .port hOff
  · split
    · exact h.extend .userinfo
    · exact h.start .userinfo hOff
  · exact h

theorem httpParseHostLoop_within {u : HttpParserUrl} {s : HostState} {n off : Nat}
    {bytes : ByteString} (h : u.Within n) (hOff : bytes ≠ [] → off + bytes.length ≤ n) :
    (httpParseHostLoop u s off bytes).1.Within n := by
  induction bytes generalizing u s off with
  | nil => exact h
  | cons ch rest ih =>
      have hLength := hOff (List.cons_ne_nil ch rest)
      rw [List.length_cons] at hLength
      unfold httpParseHostLoop
      split
      · exact h
      · exact ih (httpParseHostStep_within h (by omega) _ _) (fun _ => by omega)

theorem httpParseHost_within {buf : ByteString} {u : HttpParserUrl} {n : Nat} (foundAt : Bool)
    (hBuf : buf.length ≤ n) (h : u.Within n) : (httpParseHost buf u foundAt).1.Within n := by
  have hHost : (u.setField .host { u.host with len := 0 }).Within n := h.setField .host (h .host)
  apply httpParseHostLoop_within hHost
  intro hBytes
  have hPos := List.length_pos_of_ne_nil hBytes
  simp only [List.length_take, List.length_drop] at hPos ⊢
  omega

theorem parseUrlLoop_within {u : HttpParserUrl} {s : State} {oldUf : Option UrlFields}
    {foundAt : Bool} {n off : Nat} {bytes : ByteString} (h : u.Within n)
    (hOff : off + bytes.length ≤ n) : (parseUrlLoop u s oldUf foundAt off bytes).1.Within n := by
  induction bytes generalizing u s oldUf foundAt off with
  | nil => exact h
  | cons ch rest ih =>
      rw [List.length_cons] at hOff
      simp only [parseUrlLoop]
      split
      · exact h
      split
      · exact ih h (by omega)
      split
      · exact ih (h.extend _) (by omega)
      · exact ih (h.start _ (by omega)) (by omega)

/-- The offsets that a call leaves point into its buffer, but for those that an earlier
call has left. -/
theorem httpParserParseUrl_within {buf : ByteString} (isConnect : Bool) {u : HttpParserUrl} {n : Nat}
    (hBuf : buf.length ≤ n) (h : u.Within n) :
    (httpParserParseUrl buf isConnect u).1.Within n := by
  have hLoop : ∀ s, (parseUrlLoop u.clearSet s none false 0 buf).1.Within n :=
    fun s => parseUrlLoop_within h.clearSet (by omega)
  have hLoop := hLoop (if isConnect then .reqServerStart else .reqSpacesBeforeUrl)
  unfold httpParserParseUrl
  dsimp only
  rcases hParse : parseUrlLoop u.clearSet (if isConnect then .reqServerStart else .reqSpacesBeforeUrl)
    none false 0 buf with ⟨v, _ | foundAt⟩
  · rw [hParse] at hLoop
    exact hLoop
  rw [hParse] at hLoop
  have hHost : (httpParseHost buf v foundAt).1.Within n := httpParseHost_within foundAt hBuf hLoop
  dsimp only
  repeat' split
  all_goals first | exact hLoop | exact hHost

end Doormat.Parser
