import Doormat.Parser.Url

/-! Targets in origin form: a path, with a query and a fragment if there are any, and what
`http_parser_parse_url` finds in one that it is given whole. -/
namespace Doormat.Parser

open Bytes

/-- A target in origin form, of bytes that the parser accepts. The path stands without its
slash, the query and the fragment without their delimiters. -/
structure OriginForm where
  path : ByteString
  query : Option ByteString
  fragment : Option ByteString
  path_chars : ∀ c ∈ path, isUrlChar c = true
  query_chars : ∀ q ∈ query, ∀ c ∈ q, isUrlChar c = true ∨ c = '?'.toUInt8
  fragment_chars : ∀ f ∈ fragment, ∀ c ∈ f,
    isUrlChar c = true ∨ c = '?'.toUInt8 ∨ c = '#'.toUInt8

namespace OriginForm

def queryPart (t : OriginForm) : ByteString := (t.query.map ('?'.toUInt8 :: ·)).getD []

def fragmentPart (t : OriginForm) : ByteString := (t.fragment.map ('#'.toUInt8 :: ·)).getD []

/-- The target as it is written. -/
def bytes (t : OriginForm) : ByteString :=
  '/'.toUInt8 :: t.path ++ t.queryPart ++ t.fragmentPart

/-- Whatever comes after the first delimiter of a fragment that is a delimiter too is skipped. -/
def fragmentText (t : OriginForm) : ByteString :=
  (t.fragment.getD []).dropWhile (· = '#'.toUInt8)

end OriginForm

theorem isUrlChar_accepted {c : UInt8} (h : isUrlChar c = true) :
    ¬ (c = SP ∨ c = CR ∨ c = LF) ∧ ¬ (c = HT ∨ c = 12) ∧ c ≠ '?'.toUInt8 ∧ c ≠ '#'.toUInt8 := by
  revert h
  exact forall_byte (P := fun c => isUrlChar c = true → ¬ (c = SP ∨ c = CR ∨ c = LF) ∧
    ¬ (c = HT ∨ c = 12) ∧ c ≠ '?'.toUInt8 ∧ c ≠ '#'.toUInt8) (by decide +kernel) c

theorem parseUrlChar_path {c : UInt8} (h : isUrlChar c = true) :
    parseUrlChar .reqPath c = .reqPath := by
  obtain ⟨hLine, hTab, -, -⟩ := isUrlChar_accepted h
  simp [parseUrlChar, hLine, hTab, h]

theorem parseUrlChar_query {c : UInt8} (h : isUrlChar c = true ∨ c = '?'.toUInt8) {s : State}
    (hs : s = .reqQueryStringStart ∨ s = .reqQueryString) : parseUrlChar s c = .reqQueryString := by
  cases h with
  | inl h =>
      obtain ⟨hLine, hTab, -, -⟩ := isUrlChar_accepted h
      cases hs with
      | inl hs => simp [parseUrlChar, hs, hLine, hTab, h]
      | inr hs => simp [parseUrlChar, hs, hLine, hTab, h]
  | inr h =>
      cases hs with
      | inl hs => simp only [hs, h]; decide
      | inr hs => simp only [hs, h]; decide

theorem parseUrlChar_fragment {c : UInt8}
    (h : isUrlChar c = true ∨ c = '?'.toUInt8 ∨ c = '#'.toUInt8) :
    parseUrlChar .reqFragment c = .reqFragment ∧
      parseUrlChar .reqFragmentStart c =
        if c = '#'.toUInt8 then .reqFragmentStart else .reqFragment := by
  rcases h with h | rfl | rfl
  · obtain ⟨hLine, hTab, -, hHash⟩ := isUrlChar_accepted h
    simp [parseUrlChar, hLine, hTab, h, hHash]
  · decide
  · decide

/-- A field that takes up `len` bytes from `off` on. An empty one stays unset. -/
def FieldData.piece (off len : Nat) : FieldData := if len = 0 then {} else ⟨off, len, true⟩

/-- The field of a fragment whose delimiter stands before `off`. More delimiters are skipped. -/
def FieldData.fragmentPiece (off : Nat) (f : ByteString) : FieldData :=
  .piece (off + (f.takeWhile (· = '#'.toUInt8)).length) (f.dropWhile (· = '#'.toUInt8)).length

/-- Bytes under which the state stays as it is lengthen the current field. -/
theorem parseUrlLoop_stay {s : State} {uf : UrlFields} (hField : urlFieldOf s = some uf)
    (hAt : s ≠ .reqServerWithAt) {bytes : ByteString}
    (hStay : ∀ c ∈ bytes, parseUrlChar s c = s) (u : HttpParserUrl) (off : Nat)
    (rest : ByteString) :
    parseUrlLoop u s (some uf) false off (bytes ++ rest) =
      parseUrlLoop (u.setField uf { u.field uf with len := (u.field uf).len + bytes.length }) s
        (some uf) false (off + bytes.length) rest := by
  induction bytes generalizing u off with
  | nil =>
      have hSame : u.setField uf { u.field uf with len := (u.field uf).len + 0 } = u := by
        cases uf <;> rfl
      rw [List.nil_append, List.length_nil, hSame, Nat.add_zero]
  | cons c bytes ih =>
      have hc : parseUrlChar s c = s := hStay c List.mem_cons_self
      have hDead : s ≠ .dead := by
        intro hEq
        rw [hEq] at hField
        cases hField
      have hExtend : (u.extend uf).setField uf { (u.extend uf).field uf with
          len := ((u.extend uf).field uf).len + bytes.length } =
            u.setField uf { u.field uf with len := (u.field uf).len + (bytes.length + 1) } := by
        cases uf <;> simp [HttpParserUrl.extend, HttpParserUrl.setField, HttpParserUrl.field] <;> omega
      rw [List.cons_append, parseUrlLoop]
      simp only [hc, hDead, hAt, hField, if_false, if_true, decide_false, Bool.or_false]
      rw [ih (fun c hMem => hStay c (List.mem_cons_of_mem _ hMem)), hExtend, List.length_cons]
      congr 1
      omega

/-- A field that begins with its first byte and goes on to the last. -/
theorem parseUrlLoop_field {s t : State} {uf : UrlFields} (hField : urlFieldOf t = some uf)
    (hAt : t ≠ .reqServerWithAt) {c : UInt8} {bytes : ByteString} (hFirst : parseUrlChar s c = t)
    (hStay : ∀ c ∈ bytes, parseUrlChar t c = t) (u : HttpParserUrl) {oldUf : Option UrlFields}
    (hOld : oldUf ≠ some uf) (off : Nat) (rest : ByteString) :
    parseUrlLoop u s oldUf false off (c :: bytes ++ rest) =
      parseUrlLoop (u.setField uf ⟨off, bytes.length + 1, true⟩) t (some uf) false
        (off + (bytes.length + 1)) rest := by
  have hDead : t ≠ .dead := by
    intro hEq
    rw [hEq] at hField
    cases hField
  rw [List.cons_append, parseUrlLoop]
  simp only [hFirst, hDead, hAt, hField, hOld, if_false, decide_false, Bool.or_false]
  rw [parseUrlLoop_stay hField hAt hStay]
  have hStart : (u.start uf off).setField uf { (u.start uf off).field uf with
      len := ((u.start uf off).field uf).len + bytes.length } =
        u.setField uf ⟨off, bytes.length + 1, true⟩ := by
    cases uf <;> simp [HttpParserUrl.start, HttpParserUrl.setField, HttpParserUrl.field] <;> omega
  rw [hStart]
  congr 1
  omega

/-- A delimiter is skipped. -/
theorem parseUrlLoop_delimiter {s t : State} {c : UInt8} (hNext : parseUrlChar s c = t)
    (hField : urlFieldOf t = none) (hDead : t ≠ .dead) (u : HttpParserUrl)
    (oldUf : Option UrlFields) (off : Nat) (rest : ByteString) :
    parseUrlLoop u s oldUf false off (c :: rest) = parseUrlLoop u t oldUf false (off + 1) rest := by
  have hAt : t ≠ .reqServerWithAt := by
    intro hEq
    rw [hEq] at hField
    cases hField
  rw [parseUrlLoop]
  simp only [hNext, hDead, hAt, hField, if_false, decide_false, Bool.or_false]

/-- Before a fragment: the states in which a `#` begins one. -/
def BeforeFragment (s : State) (uf : Option UrlFields) : Prop :=
  parseUrlChar s '#'.toUInt8 = .reqFragmentStart ∧ uf ≠ some .fragment

namespace OriginForm

variable (t : OriginForm)

/-- What `http_parser_parse_url` finds in a target in origin form. -/
def url : HttpParserUrl where
  path := ⟨0, t.path.length + 1, true⟩
  query := .piece (t.path.length + 2) (t.query.getD []).length
  fragment := .fragmentPiece (t.path.length + 1 + t.queryPart.length + 1) (t.fragment.getD [])

theorem parseUrlLoop_path (rest : ByteString) :
    parseUrlLoop {} .reqSpacesBeforeUrl none false 0 ('/'.toUInt8 :: t.path ++ rest) =
      parseUrlLoop { path := ⟨0, t.path.length + 1, true⟩ } .reqPath (some .path) false
        (t.path.length + 1) rest := by
  have hFirst : parseUrlChar .reqSpacesBeforeUrl '/'.toUInt8 = .reqPath := by decide
  have hStay : ∀ c ∈ t.path, parseUrlChar .reqPath c = .reqPath :=
    fun c hMem => parseUrlChar_path (t.path_chars c hMem)
  rw [parseUrlLoop_field rfl (by decide) hFirst hStay {} (by decide), Nat.zero_add]
  rfl

theorem parseUrlLoop_queryPart {u : HttpParserUrl} (hUnset : u.query = {}) (off : Nat)
    (rest : ByteString) : ∃ s uf, BeforeFragment s uf ∧
      parseUrlLoop u .reqPath (some .path) false off (t.queryPart ++ rest) =
        parseUrlLoop { u with query := .piece (off + 1) (t.query.getD []).length } s uf false
          (off + t.queryPart.length) rest := by
  have hSame : { u with query := {} } = u := by rw [← hUnset]
  have hDelimiter : parseUrlChar .reqPath '?'.toUInt8 = .reqQueryStringStart := by decide
  cases hQuery : t.query with
  | none =>
      refine ⟨.reqPath, some .path, ⟨by decide, by decide⟩, ?_⟩
      simp only [queryPart, hQuery, Option.map_none, Option.getD_none, List.nil_append,
        List.length_nil, FieldData.piece, if_true, hSame, Nat.add_zero]
  | some q =>
      simp only [queryPart, hQuery, Option.map_some, Option.getD_some, List.cons_append,
        List.length_cons]
      rw [parseUrlLoop_delimiter hDelimiter rfl (by decide)]
      cases q with
      | nil =>
          refine ⟨.reqQueryStringStart, some .path, ⟨by decide, by decide⟩, ?_⟩
          simp only [FieldData.piece, List.length_nil, if_true, hSame, List.nil_append, Nat.zero_add]
      | cons c q =>
          have hChars := t.query_chars _ hQuery
          have hFirst : parseUrlChar .reqQueryStringStart c = .reqQueryString :=
            parseUrlChar_query (hChars c List.mem_cons_self) (Or.inl rfl)
          have hStay : ∀ c ∈ q, parseUrlChar .reqQueryString c = .reqQueryString :=
            fun d hMem => parseUrlChar_query (hChars d (List.mem_cons_of_mem _ hMem)) (Or.inr rfl)
          refine ⟨.reqQueryString, some .query, ⟨by decide, by decide⟩, ?_⟩
          rw [parseUrlLoop_field rfl (by decide) hFirst hStay u (by decide)]
          simp only [FieldData.piece, List.length_cons, HttpParserUrl.setField]
          rw [if_neg (Nat.succ_ne_zero _)]
          congr 1
          omega

/-- The bytes of a fragment, after its delimiter. -/
theorem parseUrlLoop_fragment {f : ByteString}
    (hChars : ∀ c ∈ f, isUrlChar c = true ∨ c = '?'.toUInt8 ∨ c = '#'.toUInt8) {u : HttpParserUrl}
    (hUnset : u.fragment = {}) {uf : Option UrlFields} (hOld : uf ≠ some .fragment) (off : Nat) :
    parseUrlLoop u .reqFragmentStart uf false off f =
      ({ u with fragment := .fragmentPiece off f }, some false) := by
  have hSame : { u with fragment := {} } = u := by rw [← hUnset]
  induction f generalizing off with
  | nil =>
      simp only [parseUrlLoop, FieldData.fragmentPiece, List.dropWhile_nil, List.length_nil,
        FieldData.piece, if_true, hSame]
  | cons c f ih =>
      have hRest := fun c hMem => hChars c (List.mem_cons_of_mem _ hMem)
      obtain ⟨-, hNext⟩ := parseUrlChar_fragment (hChars c List.mem_cons_self)
      by_cases hHash : c = '#'.toUInt8
      · rw [if_pos hHash] at hNext
        have hPiece : FieldData.fragmentPiece off (c :: f) = .fragmentPiece (off + 1) f := by
          simp only [FieldData.fragmentPiece, hHash, List.takeWhile_cons, List.dropWhile_cons,
            decide_true, if_true, List.length_cons]
          congr 1
          omega
        rw [parseUrlLoop_delimiter hNext rfl (by decide), ih hRest, hPiece]
      · rw [if_neg hHash] at hNext
        have hStay : ∀ c ∈ f, parseUrlChar .reqFragment c = .reqFragment :=
          fun c hMem => (parseUrlChar_fragment (hRest c hMem)).1
        have hField := parseUrlLoop_field rfl (by decide) hNext hStay u hOld off []
        rw [List.append_nil] at hField
        have hPiece : FieldData.fragmentPiece off (c :: f) = ⟨off, f.length + 1, true⟩ := by
          simp [FieldData.fragmentPiece, FieldData.piece, hHash]
        rw [hField, hPiece]
        rfl

theorem parseUrlLoop_bytes :
    parseUrlLoop {} .reqSpacesBeforeUrl none false 0 t.bytes = (t.url, some false) := by
  rw [bytes, List.append_assoc, parseUrlLoop_path]
  obtain ⟨s, uf, ⟨hHash, hOld⟩, hQuery⟩ := t.parseUrlLoop_queryPart
    (u := { path := ⟨0, t.path.length + 1, true⟩ }) rfl (t.path.length + 1) t.fragmentPart
  rw [hQuery]
  cases hFragment : t.fragment with
  | none =>
      simp [fragmentPart, url, hFragment, parseUrlLoop, FieldData.fragmentPiece, FieldData.piece]
  | some f =>
      simp only [fragmentPart, hFragment, Option.map_some, Option.getD_some]
      rw [parseUrlLoop_delimiter hHash rfl (by decide),
        parseUrlLoop_fragment (t.fragment_chars f hFragment) rfl hOld]
      simp only [url, hFragment, Option.getD_some]

/-- Given whole, a target in origin form is accepted, and its parts are found. -/
theorem httpParserParseUrl_bytes : httpParserParseUrl t.bytes false {} = (t.url, true) := by
  have hClear : ({} : HttpParserUrl).clearSet = {} := rfl
  simp [httpParserParseUrl, hClear, parseUrlLoop_bytes, url]

end OriginForm

end Doormat.Parser
