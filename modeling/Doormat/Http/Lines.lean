import Doormat.Library.Combine
import Doormat.Http.StructuredData

/-! The header lines that `serialize` writes: one for each name, with its values joined. -/
namespace Doormat.Http

open Bytes

def hfCookie : ByteString := ofString "cookie"

/-- What stands between two values of a name. -/
def separator (key : ByteString) : ByteString :=
  if key = hfCookie then semicolonSpace else commaSpace

/-- Two values in one. -/
def joinBy (sep a b : ByteString) : ByteString := a ++ sep ++ b

theorem foldl_joinBy_append (sep a b : ByteString) (values : List ByteString) :
    values.foldl (joinBy sep) (a ++ b) = a ++ values.foldl (joinBy sep) b := by
  induction values generalizing b with
  | nil => rfl
  | cons value values ih =>
      rw [List.foldl_cons, List.foldl_cons, joinBy, joinBy, List.append_assoc a b, List.append_assoc a,
        ih]

/-- The first value comes before the others. -/
theorem foldl_joinBy_cons (sep first second : ByteString) (values : List ByteString) :
    (second :: values).foldl (joinBy sep) first =
      first ++ sep ++ values.foldl (joinBy sep) second := by
  rw [List.foldl_cons, joinBy, foldl_joinBy_append]

theorem foldl_joinBy (sep first : ByteString) (values : List ByteString) :
    values.foldl (joinBy sep) first = sep.intercalate (first :: values) := by
  induction values generalizing first with
  | nil => simp [List.intercalate]
  | cons second values ih =>
      rw [foldl_joinBy_cons, ih, List.intercalate_cons_cons, List.append_assoc]

/-- The values of a name as one, if there are any. -/
theorem combine_joinBy (sep : ByteString) (values : List ByteString) :
    (Multimap.combine (joinBy sep) values).toList =
      if values = [] then [] else [sep.intercalate values] := by
  cases values with
  | nil => rfl
  | cons first values => simp [Multimap.combine, foldl_joinBy]

/-- One line, without its end. -/
def renderLine (line : ByteString × ByteString) : ByteString := line.1 ++ colonSpace ++ line.2

namespace StructuredData

/-- The names with their values, each name once. -/
def lines (d : StructuredData) : List (ByteString × ByteString) :=
  Multimap.joinRuns (fun key => joinBy (separator key)) d.headers.entries

/-- The line of a run of entries. -/
def runLine (r : ByteString × ByteString × List ByteString) : ByteString × ByteString :=
  (r.1, r.2.2.foldl (joinBy (separator r.1)) r.2.1)

/-- After a header the next run goes on with the same line or begins another. -/
theorem serializeHeaders_some (last : ByteString) (entries : List (ByteString × ByteString)) :
    serializeHeaders (some last) entries =
      match Multimap.runs entries with
      | [] => []
      | r :: more =>
          (if last = r.1 then separator r.1 else crlf ++ r.1 ++ colonSpace) ++ (runLine r).2 ++
            more.flatMap fun r => crlf ++ renderLine (runLine r) := by
  induction entries generalizing last with
  | nil => rfl
  | cons e rest ih =>
      rcases e with ⟨key, value⟩
      have hGlue : serializeHeaders (some last) ((key, value) :: rest) =
          (if last = key then separator key else crlf ++ key ++ colonSpace) ++ value ++
            serializeHeaders (some key) rest := by
        by_cases hKey : last = key
        · by_cases hCookie : key = ofString "cookie"
          · simp [serializeHeaders, separator, hfCookie, hKey, hCookie]
          · simp [serializeHeaders, separator, hfCookie, hKey, hCookie]
        · simp [serializeHeaders, hKey]
      rw [hGlue, ih]
      cases hRuns : Multimap.runs rest with
      | nil => simp [Multimap.runs, hRuns, runLine]
      | cons r more =>
          rcases r with ⟨next, first, others⟩
          by_cases hKey : key = next
          · subst hKey
            simp only [Multimap.runs, hRuns, if_true, runLine, foldl_joinBy_cons, List.append_assoc]
          · simp only [Multimap.runs, hRuns, if_neg hKey, runLine, renderLine, List.foldl_nil,
              List.flatMap_cons, List.append_assoc]

theorem intercalate_crlf (line : ByteString) (lines : List ByteString) :
    crlf.intercalate (line :: lines) = line ++ lines.flatMap (crlf ++ ·) := by
  induction lines generalizing line with
  | nil => simp [List.intercalate]
  | cons next lines ih =>
      rw [List.intercalate_cons_cons, ih, List.flatMap_cons, List.append_assoc, List.append_assoc]

/-- The headers are written as their lines. -/
theorem serializeHeaders_none (d : StructuredData) :
    serializeHeaders none d.headers.entries = crlf.intercalate (d.lines.map renderLine) := by
  have hLines : d.lines = (Multimap.runs d.headers.entries).map runLine := rfl
  rw [hLines]
  cases d.headers.entries with
  | nil => rfl
  | cons e rest =>
      rcases e with ⟨key, value⟩
      have hStart : serializeHeaders none ((key, value) :: rest) =
          key ++ colonSpace ++ value ++ serializeHeaders (some key) rest := by
        simp [serializeHeaders]
      rw [hStart, serializeHeaders_some]
      cases hRuns : Multimap.runs rest with
      | nil => simp [Multimap.runs, hRuns, runLine, renderLine, List.intercalate]
      | cons r more =>
          rcases r with ⟨next, first, others⟩
          by_cases hKey : key = next
          · subst hKey
            simp only [Multimap.runs, hRuns, if_true, List.map_cons, intercalate_crlf, List.flatMap_map,
              runLine, renderLine, foldl_joinBy_cons, List.append_assoc]
          · simp only [Multimap.runs, hRuns, if_neg hKey, List.map_cons, intercalate_crlf,
              List.flatMap_cons, List.flatMap_map, runLine, renderLine, List.foldl_nil,
              List.append_assoc]

/-- With any header at all `serialize` writes the lines. -/
theorem serialize_lines {d : StructuredData} (h : d.headers.entries ≠ []) :
    d.serialize = some (crlf.intercalate (d.lines.map renderLine) ++
      (if (d.headers.entries.getLast h).1 = [] then [] else crlf) ++ crlf) := by
  rw [serialize, List.getLast?_eq_some_getLast h]
  simp only [serializeHeaders_none]

/-- The value of a name in the lines. -/
theorem valuesIn_lines (d : StructuredData) (key : ByteString) :
    Multimap.valuesIn d.lines key =
      if d.getHeaders key = [] then [] else [(separator key).intercalate (d.getHeaders key)] := by
  rw [lines, Multimap.valuesIn_joinRuns _ d.headers.sorted, combine_joinBy]
  rfl

end StructuredData

end Doormat.Http
