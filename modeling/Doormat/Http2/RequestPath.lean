import Doormat.Http.Codec
import Doormat.Parser.OriginForm

/-! The request side of a server stream: how `session` puts the fields of a request's headers
into an `http_request`, and what becomes of a target in comparison with the HTTP/1 codec. -/
namespace Doormat.Http2

open Bytes Doormat.Parser Doormat.Http

namespace Session

def pathName : ByteString := ofString ":path"
def methodName : ByteString := ofString ":method"
def authorityName : ByteString := ofString ":authority"
def schemeName : ByteString := ofString ":scheme"

/-- `:path`. The query and the fragment are both copied from `k`, where the path ends. -/
def onPath (r : HttpRequest) (value : ByteString) : HttpRequest :=
  let decodedPath := value.takeWhile (· ≠ '?'.toUInt8)
  let fromK := value.dropWhile (· ≠ '?'.toUInt8)
  let decodedQuery := fromK.takeWhile (· ≠ '#'.toUInt8)
  let decodedFragment := fromK
  { r with
    path := decodedPath
    query := if decodedQuery ≠ [] then decodedQuery else r.query
    fragment := if decodedFragment ≠ [] then decodedFragment else r.fragment }

/-- `stream::uri_host`. -/
def uriHost (r : HttpRequest) (p : ByteString) : HttpRequest :=
  { r with toStructuredData := r.toStructuredData.storeHeader hfHost p, urihost := p }

/-- `on_header_callback`, for the headers of a request. There is none where `header` throws. -/
def onHeaderCallback (r : HttpRequest) (name value : ByteString) : Option HttpRequest :=
  if name = pathName then some (onPath r value)
  else if name = schemeName then some { r with schema := value }
  else if name = methodName then some (r.setMethod value)
  else if name = authorityName then some (uriHost r value)
  else (r.toStructuredData.header name value).toOption.map fun data =>
    { r with toStructuredData := data }

end Session

/-- Nothing but the delimiters is empty where they stand. -/
def NonemptyParts (t : OriginForm) : Prop := t.query ≠ some [] ∧ t.fragment ≠ some []

/-- A codec that is given a target is at its first byte, and a request is installed. -/
structure AtTarget {υ : Type} (d : Impl υ) (r : HttpRequest) : Prop where
  installed : d.installed = true
  object : d.object = .request r
  connected : d.connected = false
  urline : d.urline = []
  url : d.url = {}

/-- A `:path` gives the request the parts that `on_url` gives to a request for the same target,
and the request writes the target back. -/
def DecodedAlike {υ : Type} (t : OriginForm) (r : HttpRequest) (d : Impl υ) : Prop :=
  ∃ h2 d' h1, Session.onHeaderCallback r Session.pathName t.bytes = some h2 ∧
    Impl.onUrl t.bytes d = .ok (0, d') ∧ d'.object = .request h1 ∧
    h2.path = h1.path ∧ h2.query = h1.query ∧ h2.fragment = h1.fragment ∧
    (NonemptyParts t → h2.startLine =
      methodMapper h2.method ++ space ++ t.bytes ++ space ++ protoToString h2.protocolVersion)

section Codec

variable {υ : Type} {t : OriginForm}

theorem substr_piece (a b c : ByteString) :
    Impl.substr (a ++ b ++ c) (.piece a.length b.length) = .ok b := by
  by_cases hEmpty : b = []
  · simp [hEmpty, FieldData.piece, Impl.substr]
  · have hLength : b.length ≠ 0 := fun h => hEmpty (List.eq_nil_of_length_eq_zero h)
    simp [FieldData.piece, hLength, Impl.substr]

theorem substr_path (t : OriginForm) :
    Impl.substr t.bytes t.url.path = .ok ('/'.toUInt8 :: t.path) := by
  have h := substr_piece [] ('/'.toUInt8 :: t.path) (t.queryPart ++ t.fragmentPart)
  simpa [OriginForm.bytes, OriginForm.url, FieldData.piece] using h

theorem substr_query (t : OriginForm) :
    Impl.substr t.bytes t.url.query = .ok (t.query.getD []) := by
  cases hQuery : t.query with
  | none => simp [OriginForm.url, hQuery, FieldData.piece, Impl.substr]
  | some q =>
      have h := substr_piece ('/'.toUInt8 :: t.path ++ ['?'.toUInt8]) q t.fragmentPart
      simpa [OriginForm.bytes, OriginForm.url, OriginForm.queryPart, hQuery] using h

theorem substr_fragment (t : OriginForm) :
    Impl.substr t.bytes t.url.fragment = .ok t.fragmentText := by
  cases hFragment : t.fragment with
  | none =>
      simp [OriginForm.url, OriginForm.fragmentText, hFragment, FieldData.fragmentPiece,
        FieldData.piece, Impl.substr]
  | some f =>
      have h := substr_piece ('/'.toUInt8 :: t.path ++ t.queryPart ++
        ('#'.toUInt8 :: f.takeWhile (· = '#'.toUInt8))) (f.dropWhile (· = '#'.toUInt8)) []
      have hBytes : t.bytes = '/'.toUInt8 :: t.path ++ t.queryPart ++
          ('#'.toUInt8 :: f.takeWhile (· = '#'.toUInt8)) ++ f.dropWhile (· = '#'.toUInt8) ++ [] := by
        simp [OriginForm.bytes, OriginForm.fragmentPart, hFragment]
      have hField : t.url.fragment = .piece ('/'.toUInt8 :: t.path ++ t.queryPart ++
          ('#'.toUInt8 :: f.takeWhile (· = '#'.toUInt8))).length
            (f.dropWhile (· = '#'.toUInt8)).length := by
        simp only [OriginForm.url, hFragment, Option.getD_some, FieldData.fragmentPiece,
          List.length_append, List.length_cons]
        congr 1
        omega
      rw [hBytes, hField, h]
      simp [OriginForm.fragmentText, hFragment]

/-- The request after `on_url`. -/
def targeted (t : OriginForm) (r : HttpRequest) : HttpRequest :=
  { r with
    schema := [], urihost := [], port := [], path := '/'.toUInt8 :: t.path
    query := t.query.getD [], fragment := t.fragmentText, userinfo := [] }

/-- `on_url` for a target that is given whole. -/
theorem onUrl_bytes {d : Impl υ} {r : HttpRequest} (h : AtTarget d r)
    (hFits : t.bytes.length ≤ Impl.maxUriLen) :
    ∃ d', Impl.onUrl t.bytes d = .ok (0, d') ∧ d'.object = .request (targeted t r) := by
  have hEmpty : ∀ s : ByteString, Impl.substr s {} = .ok [] := fun s => by simp [Impl.substr]
  have hStore : Impl.storeUrl r t.bytes t.url = .ok (targeted t r) := by
    have hSchema : t.url.schema = {} := rfl
    have hHost : t.url.host = {} := rfl
    have hPort : t.url.portField = {} := rfl
    have hUserinfo : t.url.userinfo = {} := rfl
    simp only [Impl.storeUrl, hSchema, hHost, hPort, hUserinfo, hEmpty, substr_path, substr_query,
      substr_fragment]
    rfl
  refine ⟨{ d with
    urline := t.bytes
    url := t.url
    object := .request (targeted t r)
    connected := true }, ?_, rfl⟩
  have hLong : ¬ t.bytes.length > Impl.maxUriLen := Nat.not_lt.mpr hFits
  simp only [Impl.onUrl, h.urline, List.nil_append, hLong, if_false, Impl.deref, h.installed,
    if_true, h.object, h.connected, h.url, t.httpParserParseUrl_bytes]
  simp only [bind, Except.bind, hStore]

end Codec

section Split

variable (t : OriginForm) (r : HttpRequest)

theorem path_ne_questionmark : ∀ c ∈ '/'.toUInt8 :: t.path, decide (c ≠ '?'.toUInt8) = true := by
  intro c hMem
  cases List.mem_cons.mp hMem with
  | inl hSlash => rw [hSlash]; decide
  | inr hPath => exact decide_eq_true (isUrlChar_accepted (t.path_chars c hPath)).2.2.1

/-- Before the query, or else all of the target, is the path. -/
theorem path_onPath : (Session.onPath r t.bytes).path = '/'.toUInt8 :: t.path ++
    (t.queryPart ++ t.fragmentPart).takeWhile (· ≠ '?'.toUInt8) := by
  rw [Session.onPath, OriginForm.bytes, List.append_assoc]
  exact List.takeWhile_append_of_pos (path_ne_questionmark t)

theorem fromK_onPath : t.bytes.dropWhile (· ≠ '?'.toUInt8) =
    (t.queryPart ++ t.fragmentPart).dropWhile (· ≠ '?'.toUInt8) := by
  rw [OriginForm.bytes, List.append_assoc]
  exact List.dropWhile_append_of_pos (path_ne_questionmark t)

/-- A query keeps its delimiter. -/
theorem query_onPath {q : ByteString} (hQuery : t.query = some q) :
    (Session.onPath r t.bytes).query = '?'.toUInt8 :: q := by
  have hFromK : t.bytes.dropWhile (· ≠ '?'.toUInt8) = ('?'.toUInt8 :: q) ++ t.fragmentPart := by
    rw [fromK_onPath, OriginForm.queryPart, hQuery]
    exact List.dropWhile_cons_of_neg (by simp)
  have hChars : ∀ c ∈ '?'.toUInt8 :: q, decide (c ≠ '#'.toUInt8) = true := by
    intro c hMem
    cases List.mem_cons.mp hMem with
    | inl hMark => rw [hMark]; decide
    | inr hIn =>
        cases t.query_chars q hQuery c hIn with
        | inl hChar => exact decide_eq_true (isUrlChar_accepted hChar).2.2.2
        | inr hMark => rw [hMark]; decide
  have hRest : t.fragmentPart.takeWhile (· ≠ '#'.toUInt8) = [] := by
    cases hFragment : t.fragment with
    | none => simp [OriginForm.fragmentPart, hFragment]
    | some f => simp [OriginForm.fragmentPart, hFragment]
  have hTaken : (t.bytes.dropWhile (· ≠ '?'.toUInt8)).takeWhile (· ≠ '#'.toUInt8) =
      '?'.toUInt8 :: q := by
    rw [hFromK, List.takeWhile_append_of_pos hChars, hRest, List.append_nil]
  simp only [Session.onPath, hTaken]
  exact if_pos (List.cons_ne_nil _ _)

/-- A fragment without a query stays in the path. -/
theorem path_onPath_of_fragment (hQuery : t.query = none) {f : ByteString}
    (hFragment : t.fragment = some f) :
    (Session.onPath r t.bytes).path ≠ '/'.toUInt8 :: t.path := by
  have hHash : decide ('#'.toUInt8 ≠ '?'.toUInt8) = true := by decide
  rw [path_onPath, OriginForm.queryPart, OriginForm.fragmentPart, hQuery, hFragment]
  simp only [Option.map_none, Option.map_some, Option.getD_none, Option.getD_some, List.nil_append]
  rw [List.takeWhile_cons, if_pos hHash]
  intro hEq
  have hLength := congrArg List.length hEq
  simp at hLength

/-- A target that is only a path is taken whole. -/
theorem onPath_of_path (hQuery : t.query = none) (hFragment : t.fragment = none) :
    Session.onPath r t.bytes = { r with path := '/'.toUInt8 :: t.path } := by
  have hRest : t.queryPart ++ t.fragmentPart = [] := by
    simp [OriginForm.queryPart, OriginForm.fragmentPart, hQuery, hFragment]
  have hPath := path_onPath t r
  have hFromK := fromK_onPath t
  rw [hRest] at hPath hFromK
  simp only [Session.onPath] at hPath ⊢
  rw [hPath, hFromK]
  simp

end Split

/-- What comes out alike is a path alone. -/
theorem path_alone_of_decodedAlike {υ : Type} {t : OriginForm} {r r' : HttpRequest} {d : Impl υ}
    (hd : AtTarget d r') (hFits : t.bytes.length ≤ Impl.maxUriLen) (h : DecodedAlike t r d) :
    t.query = none ∧ t.fragment = none := by
  obtain ⟨d', hUrl, hObject⟩ := onUrl_bytes hd hFits
  obtain ⟨h2, d'', h1, hPath2, hUrl', hObject', hSamePath, hSameQuery, -⟩ := h
  have hd' : d' = d'' := congrArg Prod.snd (Except.ok.inj (hUrl.symm.trans hUrl'))
  have hh1 : targeted t r' = h1 := by
    rw [← hd', hObject] at hObject'
    exact Message.request.inj hObject'
  have hh2 : Session.onPath r t.bytes = h2 := by
    rw [Session.onHeaderCallback, if_pos rfl] at hPath2
    exact Option.some.inj hPath2
  rw [← hh1, ← hh2] at hSamePath hSameQuery
  cases hq : t.query with
  | some q =>
      rw [query_onPath t r hq] at hSameQuery
      have hLength := congrArg List.length hSameQuery
      simp [targeted, hq] at hLength
  | none =>
      cases hf : t.fragment with
      | some f => exact absurd hSamePath (path_onPath_of_fragment t r hq hf)
      | none => exact ⟨rfl, rfl⟩

/-- The path, the query and the fragment come out of a `:path` as they come out of a request
line, and go back, if and only if the target is a path alone. -/
theorem decoded_alike_iff {υ : Type} (t : OriginForm) {r r' : HttpRequest} {d : Impl υ}
    (hQuery : r.query = []) (hFragment : r.fragment = []) (hd : AtTarget d r')
    (hFits : t.bytes.length ≤ Impl.maxUriLen) :
    DecodedAlike t r d ↔ t.query = none ∧ t.fragment = none := by
  constructor
  · exact path_alone_of_decodedAlike hd hFits
  · intro ⟨hq, hf⟩
    obtain ⟨d', hUrl, hObject⟩ := onUrl_bytes hd hFits
    refine ⟨_, d', _, if_pos rfl, hUrl, hObject, ?_⟩
    rw [onPath_of_path t r hq hf]
    refine ⟨rfl, ?_, ?_, ?_⟩
    · simp [targeted, hq, hQuery]
    · simp [targeted, OriginForm.fragmentText, hf, hFragment]
    · intro _
      simp [HttpRequest.startLine, OriginForm.bytes, OriginForm.queryPart, OriginForm.fragmentPart,
        hq, hf, hQuery, hFragment]

/-- A codec to which a request has been given. -/
def codecAtTarget : Impl Unit :=
  { Impl.init (.request .fresh) () with installed := true }

theorem atTarget_codecAtTarget : AtTarget codecAtTarget .fresh := ⟨rfl, rfl, rfl, rfl, rfl⟩

/-- The target `/a`, with a query `b` if there is to be one. -/
def shortTarget (withQuery : Bool) : OriginForm where
  path := ofString "a"
  query := if withQuery then some (ofString "b") else none
  fragment := none
  path_chars := by decide +kernel
  query_chars := by
    cases withQuery with
    | false => simp
    | true =>
        simp only [if_true, Option.mem_some_iff, forall_eq']
        decide +kernel
  fragment_chars := by simp

theorem decoded_alike_iff_short :
    DecodedAlike (shortTarget false) .fresh codecAtTarget ↔
      (shortTarget false).query = none ∧ (shortTarget false).fragment = none :=
  decoded_alike_iff (shortTarget false) rfl rfl atTarget_codecAtTarget (by decide)

/-- In `/a?b` the query becomes `?b`. -/
theorem query_decoded_differently :
    ¬ ∀ (t : OriginForm) (r r' : HttpRequest) (d : Impl Unit), r.query = [] → r.fragment = [] →
      AtTarget d r' → t.bytes.length ≤ Impl.maxUriLen → DecodedAlike t r d := by
  intro hAll
  have hAlike := hAll (shortTarget true) .fresh .fresh codecAtTarget rfl rfl atTarget_codecAtTarget
    (by decide)
  have hAlone := path_alone_of_decodedAlike atTarget_codecAtTarget (by decide) hAlike
  exact absurd hAlone.1 (by decide)

end Doormat.Http2
