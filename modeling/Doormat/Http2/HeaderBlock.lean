import Doormat.Http.Lines
import Doormat.Http.Mutation
import Doormat.Http2.StreamClient
import Doormat.Http2.ResponseEvents

/-! The header arrays of `stream` and `stream_client`: how `on_header` turns the fields of a
message into the `nghttp2_nv` entries that it hands to the library, and how `flush` turns the
trailers into theirs. -/
namespace Doormat.Http2

open Bytes Doormat.Parser Doormat.Http

/-- Names and values. -/
abbrev Fields := List (ByteString × ByteString)

/-- An array of `nghttp2_nv`: the number of entries that were allocated, and what is written at
which index. -/
structure NvArray where
  allocated : Nat
  written : List ((ByteString × ByteString) × Nat)
deriving DecidableEq

namespace NvArray

/-- One entry after the other, from the first on. -/
def fill (allocated : Nat) (fields : Fields) : NvArray := ⟨allocated, fields.zipIdx⟩

def fields (a : NvArray) : Fields := a.written.map Prod.fst

/-- Nothing is written past the end. -/
def InBounds (a : NvArray) : Prop := ∀ w ∈ a.written, w.2 < a.allocated

instance (a : NvArray) : Decidable a.InBounds := inferInstanceAs (Decidable (∀ w ∈ a.written, _))

@[simp] theorem fields_fill (allocated : Nat) (fields : Fields) : (fill allocated fields).fields = fields := by
  simp [NvArray.fields, fill]

/-- An array that is filled from the first entry on must have room for every field. -/
theorem inBounds_fill_iff (allocated : Nat) (fields : Fields) :
    (fill allocated fields).InBounds ↔ fields.length ≤ allocated := by
  constructor
  · intro h
    cases hFields : fields.reverse with
    | nil => simp [List.reverse_eq_nil_iff.mp hFields]
    | cons last rest =>
        have hSplit : fields = rest.reverse ++ [last] := by
          rw [← List.reverse_cons, ← hFields, List.reverse_reverse]
        have hLast : (last, rest.length) ∈ (fill allocated fields).written := by
          simp [fill, hSplit, List.zipIdx_append]
        have hLt : rest.length < allocated := h _ hLast
        simp only [hSplit, List.length_append, List.length_reverse, List.length_singleton]
        omega
  · intro h w hMem
    have hLt := List.snd_lt_of_mem_zipIdx hMem
    simp only [fill]
    omega

end NvArray

def connectionName : ByteString := ofString "connection"
def keepAliveName : ByteString := ofString "keep-alive"
def upgradeName : ByteString := ofString "upgrade"
def proxyConnectionName : ByteString := ofString "proxy-connection"
def hostName : ByteString := ofString "host"
def schemeName : ByteString := ofString ":scheme"
def methodName : ByteString := ofString ":method"
def pathName : ByteString := ofString ":path"
def hvTrailers : ByteString := ofString "trailers"

/-- The predicate with which a `stream` filters the headers of a response. -/
def isHopByHop (name : ByteString) : Bool :=
  icompare name connectionName || icompare name keepAliveName || icompare name upgradeName ||
    icompare name proxyConnectionName

/-- The predicate with which a `stream_client` filters the headers of a request. -/
def isHopByHopOrHost (name : ByteString) : Bool :=
  icompare name connectionName || icompare name keepAliveName || icompare name hostName ||
    icompare name upgradeName || icompare name proxyConnectionName

/-- `filter`, by a predicate on the names. -/
def filterHeaders (d : StructuredData) (p : ByteString → Bool) : StructuredData :=
  { d with headers := d.headers.drop fun e => p e.1 }

/-- A `transfer-encoding` is replaced by one that holds `trailers` alone. -/
def onlyTrailers (d : StructuredData) : StructuredData :=
  if d.has hfTransferEncoding then
    (d.removeHeader hfTransferEncoding).storeHeader hfTransferEncoding hvTrailers
  else d

/-- The loop over the headers: each is joined to what has been prepared under its name. -/
def prepareHeaders (prepared : Multimap ByteString ByteString) (d : StructuredData) :
    Multimap ByteString ByteString :=
  d.headers.entries.foldl (Multimap.merge (joinBy commaSpace)) prepared

/-- A `stream` with its header arrays. -/
structure HeaderStream where
  stream : Stream
  preparedHeaders : Multimap ByteString ByteString
  nvlen : Nat
  nva : NvArray

namespace HeaderStream

def init (status : Nat) : HeaderStream := ⟨.init status, .empty, 0, ⟨0, []⟩⟩

/-- `on_header`, up to the call of `flush`. -/
def prepare (s : HeaderStream) (resp : HttpResponse) : HeaderStream :=
  let data := onlyTrailers (filterHeaders resp.toStructuredData isHopByHop)
  let status := resp.statusCode
  let prepared := prepareHeaders
    (s.preparedHeaders.insert ResponseStream.statusName (numeral status)) data
  { stream := { s.stream with status := status }
    preparedHeaders := prepared
    nvlen := prepared.entries.length
    nva := .fill prepared.entries.length prepared.entries }

end HeaderStream

/-- `req_pseudo_headers`. -/
structure RequestPseudoHeaders where
  method : ByteString
  scheme : ByteString
  authority : ByteString
  path : ByteString
deriving DecidableEq

namespace RequestPseudoHeaders

def initPath (path method : ByteString) : ByteString :=
  if path ≠ [] then path else if method = ofString "OPTIONS" then ofString "*" else slash

def ofRequest (req : HttpRequest) : RequestPseudoHeaders :=
  let path := initPath req.path (methodMapper req.method)
  { method := methodMapper req.method
    scheme := req.schema
    authority := req.toStructuredData.getHeader hfHost
    path := if req.query ≠ [] then path ++ (questionmark ++ req.query) else path }

def fields (p : RequestPseudoHeaders) : Fields :=
  [(methodName, p.method), (schemeName, p.scheme), (pathName, p.path),
    (ResponseStream.authorityName, p.authority)]

/-- What the assertions of `on_header` check. -/
def Complete (p : RequestPseudoHeaders) : Prop :=
  p.method ≠ [] ∧ p.scheme ≠ [] ∧ p.path ≠ [] ∧ p.authority ≠ []

instance (p : RequestPseudoHeaders) : Decidable p.Complete := inferInstanceAs (Decidable (_ ∧ _))

end RequestPseudoHeaders

/-- A `stream_client` with its header arrays. -/
structure HeaderStreamClient where
  stream : StreamClient
  preparedHeaders : Multimap ByteString ByteString
  nvlen : Nat
  nva : NvArray

namespace HeaderStreamClient

def init (status : Nat) : HeaderStreamClient := ⟨.init status, .empty, 0, ⟨0, []⟩⟩

/-- `on_header`, up to the call of `flush`. The pseudo-headers are copied before the filter takes
the host away. There is no stream where an assertion fails. -/
def prepare (s : HeaderStreamClient) (req : HttpRequest) : Option HeaderStreamClient :=
  let pseudo := RequestPseudoHeaders.ofRequest req
  let data := onlyTrailers (filterHeaders req.toStructuredData isHopByHopOrHost)
  let prepared := prepareHeaders s.preparedHeaders data
  let nvlen := prepared.entries.length + 4
  if pseudo.Complete then
    some
      { stream := s.stream
        preparedHeaders := prepared
        nvlen := nvlen
        nva := .fill nvlen (pseudo.fields ++ prepared.entries) }
  else none

end HeaderStreamClient

section Prepared

/-- The values of a name as one value, if there are any. -/
def combined (sep : ByteString) (values : List ByteString) : List ByteString :=
  if values = [] then [] else [sep.intercalate values]

theorem length_combined_le (sep : ByteString) (values : List ByteString) :
    (combined sep values).length ≤ 1 := by
  rw [combined]
  split
  · exact Nat.zero_le _
  · exact Nat.le_refl _

theorem combined_eq_nil_iff {sep : ByteString} {values : List ByteString} :
    combined sep values = [] ↔ values = [] := by
  rw [combined]
  split
  case isTrue h => simp [h]
  case isFalse h => simp [h]

theorem combined_singleton (sep value : ByteString) : combined sep [value] = [value] := by
  simp [combined]

/-- Each name has one value in the map, whatever the map began with. -/
theorem values_prepareHeaders {prepared : Multimap ByteString ByteString}
    {before : ByteString → List ByteString}
    (h : ∀ key, prepared.values key = combined commaSpace (before key)) (d : StructuredData)
    (key : ByteString) :
    (prepareHeaders prepared d).values key = combined commaSpace (before key ++ d.getHeaders key) := by
  have hBefore : ∀ k, prepared.values k =
      (Multimap.combine (joinBy commaSpace) (before k)).toList := by
    intro k
    rw [combine_joinBy]
    exact h k
  have hAll := Multimap.values_foldl_merge hBefore d.headers.entries key
  rw [combine_joinBy] at hAll
  exact hAll

variable (d : StructuredData) {p : ByteString → Bool}

theorem getHeaders_filterHeaders (p : ByteString → Bool) (key : ByteString) :
    (filterHeaders d p).getHeaders key = if p key then [] else d.getHeaders key :=
  Multimap.values_drop_keys d.headers key

theorem has_filterHeaders {key : ByteString} (hKept : p key = false) :
    (filterHeaders d p).has key = d.has key := by
  have hValues : (filterHeaders d p).headers.values key = d.headers.values key := by
    have h := getHeaders_filterHeaders d p key
    rw [hKept] at h
    exact h
  simp [StructuredData.has, StructuredData.getHeader, Multimap.find?_eq_head?, hValues]

theorem storeHeader_trailers : d.storeHeader hfTransferEncoding hvTrailers =
    d.insertHeader hfTransferEncoding hvTrailers := by
  rw [StructuredData.storeHeader_transferEncoding, if_neg (by decide)]

theorem getHeaders_onlyTrailers (key : ByteString) :
    (onlyTrailers d).getHeaders key =
      if d.has hfTransferEncoding = true ∧ key = hfTransferEncoding then [hvTrailers]
      else d.getHeaders key := by
  rw [onlyTrailers]
  cases hHas : d.has hfTransferEncoding with
  | false => simp
  | true =>
      rw [if_pos rfl, storeHeader_trailers]
      by_cases hKey : key = hfTransferEncoding
      · simp [hKey, StructuredData.getHeaders, StructuredData.insertHeader, StructuredData.removeHeader]
      · have hNe : hfTransferEncoding ≠ key := fun hEq => hKey hEq.symm
        simp [hKey, hNe, StructuredData.getHeaders, StructuredData.insertHeader,
          StructuredData.removeHeader]

/-- What is left to send of the headers. -/
theorem getHeaders_sent (hKept : p hfTransferEncoding = false) (key : ByteString) :
    (onlyTrailers (filterHeaders d p)).getHeaders key =
      if d.has hfTransferEncoding = true ∧ key = hfTransferEncoding then [hvTrailers]
      else if p key then [] else d.getHeaders key := by
  rw [getHeaders_onlyTrailers, has_filterHeaders d hKept, getHeaders_filterHeaders]

end Prepared

namespace HeaderStream

/-- The first headers of a stream. -/
theorem valuesIn_nva {s : HeaderStream} (hFirst : s.preparedHeaders = .empty) (resp : HttpResponse)
    (key : ByteString) :
    Multimap.valuesIn (s.prepare resp).nva.fields key =
      combined commaSpace ((if key = ResponseStream.statusName then [numeral resp.statusCode] else []) ++
        (onlyTrailers (filterHeaders resp.toStructuredData isHopByHop)).getHeaders key) := by
  have hStart : ∀ k, (s.preparedHeaders.insert ResponseStream.statusName (numeral resp.statusCode)).values k =
      combined commaSpace (if k = ResponseStream.statusName then [numeral resp.statusCode] else []) := by
    intro k
    rw [hFirst]
    by_cases hKey : k = ResponseStream.statusName
    · rw [if_pos hKey, hKey, Multimap.values_insert_self, combined_singleton]
      rfl
    · rw [if_neg hKey, Multimap.values_insert_of_ne _ _ (fun hEq => hKey hEq.symm)]
      rfl
  have hValues := values_prepareHeaders hStart
    (onlyTrailers (filterHeaders resp.toStructuredData isHopByHop)) key
  rw [← hValues, prepare]
  simp only [NvArray.fields_fill]
  rfl

end HeaderStream

/-- The fields that are about one connection: HTTP/2 has none of them. -/
def isConnectionSpecific (name : ByteString) : Bool :=
  isHopByHop name || icompare name hfTransferEncoding

/-- The entries tell the headers of a response: the status first, then every name that is not
forbidden, once. -/
def TellsHeaders (isForbidden : ByteString → Bool) (resp : HttpResponse) (fields : Fields) : Prop :=
  ∃ rest, fields = (ResponseStream.statusName, numeral resp.statusCode) :: rest ∧
    (rest.map Prod.fst).Nodup ∧
    ∀ name, name ∈ rest.map Prod.fst ↔
      name ∈ resp.headers.entries.map Prod.fst ∧ isForbidden name = false

section Tells

variable {s : HeaderStream} {resp : HttpResponse}

theorem getHeaders_eq_nil_iff {d : StructuredData} {name : ByteString} :
    d.getHeaders name = [] ↔ name ∉ d.headers.entries.map Prod.fst := by
  rw [Multimap.mem_keys_iff, not_not]
  rfl

theorem has_transferEncoding {d : StructuredData} (h : d.has hfTransferEncoding = true) :
    d.getHeaders hfTransferEncoding ≠ [] := by
  intro hNone
  have hHead : d.headers.find? hfTransferEncoding = none := by
    rw [Multimap.find?_eq_head?]
    exact List.head?_eq_none_iff.mpr hNone
  simp [StructuredData.has, StructuredData.getHeader, hHead] at h

/-- A name is sent if the response has it and the filter leaves it. -/
theorem getHeaders_sent_ne_nil_iff (d : StructuredData) (name : ByteString) :
    (onlyTrailers (filterHeaders d isHopByHop)).getHeaders name ≠ [] ↔
      d.getHeaders name ≠ [] ∧ isHopByHop name = false := by
  have hKept : isHopByHop hfTransferEncoding = false := by decide
  rw [getHeaders_sent d hKept]
  by_cases hTrailers : d.has hfTransferEncoding = true ∧ name = hfTransferEncoding
  · have hPresent := has_transferEncoding hTrailers.1
    rw [if_pos hTrailers, hTrailers.2]
    exact ⟨fun _ => ⟨hPresent, hKept⟩, fun _ => List.cons_ne_nil _ _⟩
  · rw [if_neg hTrailers]
    cases isHopByHop name with
    | true => simp
    | false => simp

/-- The status is not among the headers. -/
theorem getHeaders_status (hAfter : ∀ e ∈ resp.headers.entries, ResponseStream.statusName < e.1) :
    resp.getHeaders ResponseStream.statusName = [] := by
  rw [getHeaders_eq_nil_iff]
  intro hMem
  obtain ⟨e, hIn, hName⟩ := List.mem_map.mp hMem
  exact absurd (hAfter e hIn) (hName ▸ lt_irrefl _)

theorem getHeaders_sent_status (hAfter : ∀ e ∈ resp.headers.entries, ResponseStream.statusName < e.1) :
    (onlyTrailers (filterHeaders resp.toStructuredData isHopByHop)).getHeaders
      ResponseStream.statusName = [] := by
  by_contra hSome
  exact ((getHeaders_sent_ne_nil_iff _ _).mp hSome).1 (getHeaders_status hAfter)

/-- The status comes first among the entries. -/
theorem nva_status_first (hFirst : s.preparedHeaders = .empty)
    (hAfter : ∀ e ∈ resp.headers.entries, ResponseStream.statusName < e.1) :
    ∃ rest, (s.prepare resp).nva.fields =
      (ResponseStream.statusName, numeral resp.statusCode) :: rest := by
  have hValues := HeaderStream.valuesIn_nva hFirst resp
  have hFields : (s.prepare resp).nva.fields = (s.prepare resp).preparedHeaders.entries := by
    simp only [HeaderStream.prepare, NvArray.fields_fill]
  rw [hFields] at hValues ⊢
  apply Multimap.entries_of_least
  · rw [Multimap.values_eq, hValues, getHeaders_sent_status hAfter, if_pos rfl, List.append_nil,
      combined_singleton]
  · intro e hMem
    have hSome := Multimap.mem_keys_iff.mp (List.mem_map_of_mem (f := Prod.fst) hMem)
    rw [hValues, Ne, combined_eq_nil_iff] at hSome
    by_cases hName : e.1 = ResponseStream.statusName
    · exact le_of_eq hName.symm
    · rw [if_neg hName, List.nil_append] at hSome
      have hPresent := ((getHeaders_sent_ne_nil_iff _ _).mp hSome).1
      have hIn : e.1 ∈ resp.headers.entries.map Prod.fst := by
        by_contra hNot
        exact hPresent (getHeaders_eq_nil_iff.mpr hNot)
      obtain ⟨e', hIn', hSame⟩ := List.mem_map.mp hIn
      exact le_of_lt (hSame ▸ hAfter e' hIn')

end Tells

/-- The first response of a stream is told without the fields that the filter takes away, and
with `trailers` for its transfer coding, as long as its names come after `:status`. -/
theorem header_block_tells {s : HeaderStream} (hFirst : s.preparedHeaders = .empty) (resp : HttpResponse)
    (hAfter : ∀ e ∈ resp.headers.entries, ResponseStream.statusName < e.1) :
    TellsHeaders isHopByHop resp (s.prepare resp).nva.fields ∧
      (resp.toStructuredData.has hfTransferEncoding = true →
        Multimap.valuesIn (s.prepare resp).nva.fields hfTransferEncoding = [hvTrailers]) := by
  have hValues := HeaderStream.valuesIn_nva hFirst resp
  have hKept : isHopByHop hfTransferEncoding = false := by decide
  constructor
  · obtain ⟨rest, hRest⟩ := nva_status_first hFirst hAfter
    have hNodup : ((s.prepare resp).nva.fields.map Prod.fst).Nodup := by
      apply Multimap.nodup_keys
      intro name
      rw [hValues]
      exact length_combined_le _ _
    refine ⟨rest, hRest, ?_, ?_⟩
    · rw [hRest, List.map_cons, List.nodup_cons] at hNodup
      exact hNodup.2
    · intro name
      by_cases hName : name = ResponseStream.statusName
      · rw [hRest, List.map_cons, List.nodup_cons] at hNodup
        have hAbsent := getHeaders_eq_nil_iff.mp (getHeaders_status hAfter)
        rw [hName]
        exact ⟨fun hMem => absurd hMem hNodup.1, fun hBoth => absurd hBoth.1 hAbsent⟩
      · have hOne := hValues name
        rw [hRest, Multimap.valuesIn_cons_of_ne (fun hEq => hName hEq.symm), if_neg hName,
          List.nil_append] at hOne
        rw [Multimap.mem_keys_iff, hOne, Ne, combined_eq_nil_iff, ← Ne, getHeaders_sent_ne_nil_iff,
          Ne, getHeaders_eq_nil_iff, not_not]
  · intro hHas
    have hName : hfTransferEncoding ≠ ResponseStream.statusName := by decide
    rw [hValues, if_neg hName, List.nil_append, getHeaders_sent _ hKept, if_pos ⟨hHas, rfl⟩,
      combined_singleton]

/-- A response that is ready to be sent in chunks. -/
def chunkedResponse : HttpResponse :=
  let r := (HttpResponse.fresh 0).setStatus 200
  { r with toStructuredData := r.toStructuredData.setChunked true }

theorem header_block_tells_chunked :
    TellsHeaders isHopByHop chunkedResponse ((HeaderStream.init 0).prepare chunkedResponse).nva.fields ∧
      (chunkedResponse.toStructuredData.has hfTransferEncoding = true →
        Multimap.valuesIn ((HeaderStream.init 0).prepare chunkedResponse).nva.fields
          hfTransferEncoding = [hvTrailers]) :=
  header_block_tells rfl chunkedResponse (by decide +kernel)

/-- The transfer coding of a chunked response is sent. -/
theorem transfer_encoding_sent :
    ¬ ∀ (s : HeaderStream) (resp : HttpResponse), s.preparedHeaders = .empty →
      TellsHeaders isConnectionSpecific resp (s.prepare resp).nva.fields := by
  intro hAll
  obtain ⟨rest, hRest, -, hNames⟩ := hAll (HeaderStream.init 0) chunkedResponse rfl
  have hMem : hfTransferEncoding ∈ rest.map Prod.fst := by
    have hTail : rest = ((HeaderStream.init 0).prepare chunkedResponse).nva.fields.tail := by
      rw [hRest]
      rfl
    rw [hTail]
    decide +kernel
  exact absurd ((hNames hfTransferEncoding).mp hMem).2 (by decide)

/-! The same fields, written three times: by `serialize`, and by `on_header` of a stream and of
the stream of a client. -/

def hfSetCookie : ByteString := ofString "set-cookie"

/-- The names to which a writer gives values of its own. -/
def pseudoNames : List ByteString :=
  [ResponseStream.statusName, methodName, schemeName, pathName, ResponseStream.authorityName]

/-- No writer filters or rewrites the name. -/
def Untouched (name : ByteString) : Prop :=
  isHopByHopOrHost name = false ∧ name ≠ hfTransferEncoding ∧ name ∉ pseudoNames

instance (name : ByteString) : Decidable (Untouched name) := inferInstanceAs (Decidable (_ ∧ _))

/-- What each of the writers writes of the same headers, for the first message of a stream. -/
structure Written (data : StructuredData) where
  server : HeaderStream
  response : HttpResponse
  client : HeaderStreamClient
  request : HttpRequest
  sent : HeaderStreamClient
  serverFirst : server.preparedHeaders = .empty
  clientFirst : client.preparedHeaders = .empty
  responseData : response.toStructuredData = data
  requestData : request.toStructuredData = data
  prepared : client.prepare request = some sent

namespace Written

variable {data : StructuredData}

/-- The lines of `serialize`, the entries of the stream and those of the client's stream. -/
def all (w : Written data) : List Fields :=
  [data.lines, (w.server.prepare w.response).nva.fields, w.sent.nva.fields]

theorem valuesIn_client (w : Written data) {name : ByteString} (hName : name ∉ pseudoNames) :
    Multimap.valuesIn w.sent.nva.fields name =
      combined commaSpace ((onlyTrailers (filterHeaders data isHopByHopOrHost)).getHeaders name) := by
  have hSent := w.prepared
  rw [HeaderStreamClient.prepare] at hSent
  simp only [w.requestData] at hSent
  split at hSent
  case isFalse => cases hSent
  case isTrue =>
    have hStart : ∀ k, w.client.preparedHeaders.values k = combined commaSpace [] := by
      intro k
      rw [w.clientFirst]
      rfl
    have hValues := values_prepareHeaders hStart (onlyTrailers (filterHeaders data isHopByHopOrHost)) name
    rw [List.nil_append] at hValues
    simp only [pseudoNames, List.mem_cons, List.not_mem_nil, or_false, not_or] at hName
    obtain ⟨-, hMethod, hScheme, hPath, hAuthority⟩ := hName
    rw [← Option.some.inj hSent, NvArray.fields_fill, Multimap.valuesIn_append, ← hValues]
    simp only [RequestPseudoHeaders.fields, Multimap.valuesIn_cons_of_ne (Ne.symm hMethod),
      Multimap.valuesIn_cons_of_ne (Ne.symm hScheme), Multimap.valuesIn_cons_of_ne (Ne.symm hPath),
      Multimap.valuesIn_cons_of_ne (Ne.symm hAuthority), Multimap.valuesIn_nil, List.nil_append]
    rfl

theorem valuesIn_server (w : Written data) {name : ByteString} (hName : name ∉ pseudoNames) :
    Multimap.valuesIn (w.server.prepare w.response).nva.fields name =
      combined commaSpace ((onlyTrailers (filterHeaders data isHopByHop)).getHeaders name) := by
  have hStatus : name ≠ ResponseStream.statusName := fun hEq => hName (by simp [pseudoNames, hEq])
  rw [HeaderStream.valuesIn_nva w.serverFirst, if_neg hStatus, w.responseData, List.nil_append]

/-- Untouched fields are sent with the values that they have. -/
theorem getHeaders_sent_untouched {p : ByteString → Bool} {name : ByteString}
    (hKept : p hfTransferEncoding = false) (hName : p name = false) (hCoding : name ≠ hfTransferEncoding) :
    (onlyTrailers (filterHeaders data p)).getHeaders name = data.getHeaders name := by
  rw [getHeaders_sent data hKept, if_neg (fun h => hCoding h.2), hName]
  rfl

/-- A client's stream filters whatever a stream filters. -/
theorem isHopByHop_of_untouched {name : ByteString} (h : isHopByHopOrHost name = false) :
    isHopByHop name = false := by
  simp only [isHopByHopOrHost, Bool.or_eq_false_iff] at h
  simp [isHopByHop, h]

end Written

/-- Every writer writes an untouched name once, with its values in the order in which they came:
with a comma between them, also for `set-cookie`, and for `cookie` with a semicolon where
`serialize` writes it. `serialize` writes nothing but the lines. -/
theorem fields_combined_alike {data : StructuredData} (w : Written data) {name : ByteString}
    (hName : Untouched name) :
    (name ≠ hfCookie → ∀ fields ∈ w.all,
      Multimap.valuesIn fields name = combined commaSpace (data.getHeaders name)) ∧
    (name = hfCookie →
      Multimap.valuesIn data.lines name = combined semicolonSpace (data.getHeaders name)) ∧
    ∀ h : data.headers.entries ≠ [], data.serialize =
      some (crlf.intercalate (data.lines.map renderLine) ++
        (if (data.headers.entries.getLast h).1 = [] then [] else crlf) ++ crlf) := by
  obtain ⟨hFilter, hCoding, hPseudo⟩ := hName
  refine ⟨?_, ?_, fun h => StructuredData.serialize_lines h⟩
  · intro hCookie fields hMem
    have hLines : Multimap.valuesIn data.lines name = combined commaSpace (data.getHeaders name) := by
      have hSeparator : separator name = commaSpace := if_neg hCookie
      rw [StructuredData.valuesIn_lines, hSeparator]
      rfl
    have hServer := w.valuesIn_server hPseudo
    rw [Written.getHeaders_sent_untouched (by decide) (Written.isHopByHop_of_untouched hFilter) hCoding]
      at hServer
    have hClient := w.valuesIn_client hPseudo
    rw [Written.getHeaders_sent_untouched (by decide) hFilter hCoding] at hClient
    simp only [Written.all, List.mem_cons, List.not_mem_nil, or_false] at hMem
    rcases hMem with rfl | rfl | rfl
    · exact hLines
    · exact hServer
    · exact hClient
  · intro hCookie
    have hSeparator : separator name = semicolonSpace := if_pos hCookie
    rw [StructuredData.valuesIn_lines, hSeparator]
    rfl

/-- A message that sets two cookies. -/
def twoCookies : StructuredData :=
  ((StructuredData.fresh.storeHeader hfHost (ofString "a")).storeHeader hfSetCookie
    (ofString "b=1")).storeHeader hfSetCookie (ofString "c=2")

def cookieRequest : HttpRequest :=
  { HttpRequest.fresh with toStructuredData := twoCookies, schema := ofString "https" }

/-- The headers as they are prepared for a client's stream. -/
def cookieSent : HeaderStreamClient :=
  ((HeaderStreamClient.init 200).prepare cookieRequest).getD (.init 200)

theorem prepare_cookieRequest : (HeaderStreamClient.init 200).prepare cookieRequest = some cookieSent := by
  have hComplete : (RequestPseudoHeaders.ofRequest cookieRequest).Complete := by decide +kernel
  have hSome : ((HeaderStreamClient.init 200).prepare cookieRequest).isSome = true := by
    simp only [HeaderStreamClient.prepare, if_pos hComplete, Option.isSome_some]
  obtain ⟨sent, hSent⟩ := Option.isSome_iff_exists.mp hSome
  rw [cookieSent, hSent]
  rfl

def writtenCookies : Written twoCookies where
  server := .init 0
  response := { HttpResponse.fresh 0 with toStructuredData := twoCookies }
  client := .init 200
  request := cookieRequest
  sent := cookieSent
  serverFirst := rfl
  clientFirst := rfl
  responseData := rfl
  requestData := rfl
  prepared := prepare_cookieRequest

theorem fields_combined_alike_setCookie :
    (hfSetCookie ≠ hfCookie → ∀ fields ∈ writtenCookies.all,
      Multimap.valuesIn fields hfSetCookie = combined commaSpace (twoCookies.getHeaders hfSetCookie)) ∧
    (hfSetCookie = hfCookie → Multimap.valuesIn twoCookies.lines hfSetCookie =
      combined semicolonSpace (twoCookies.getHeaders hfSetCookie)) ∧
    ∀ h : twoCookies.headers.entries ≠ [], twoCookies.serialize =
      some (crlf.intercalate (twoCookies.lines.map renderLine) ++
        (if (twoCookies.headers.entries.getLast h).1 = [] then [] else crlf) ++ crlf) :=
  fields_combined_alike writtenCookies (show Untouched hfSetCookie by decide)

/-- What becomes of the values of a name if cookies are joined with semicolons and `set-cookie` is
kept apart. -/
def keptApart (name : ByteString) (values : List ByteString) : List ByteString :=
  if name = hfSetCookie then values else combined (separator name) values

/-- Two cookies are set in one field. -/
theorem set_cookie_combined :
    ¬ ∀ (data : StructuredData) (w : Written data) (name : ByteString), Untouched name →
      ∀ fields ∈ w.all, Multimap.valuesIn fields name = keptApart name (data.getHeaders name) := by
  intro hAll
  have hLines := hAll twoCookies writtenCookies hfSetCookie (by decide) twoCookies.lines List.mem_cons_self
  exact absurd hLines (by decide +kernel)

end Doormat.Http2
