import Doormat.Library.Runs
import Doormat.Http2.HeaderBlock

/-! The two arrays of a stream: `on_header` fills one with the headers, and `flush` one with the
trailers. Both are allocated with as many entries as there are headers. -/
namespace Doormat.Http2

open Bytes Doormat.Http

/-- What is called on a stream: by the application, with headers of the kind it sends, and by the
library. -/
inductive HeaderOp (μ : Type)
  | header (message : μ)
  | body (data : ByteString)
  | trailer (key value : ByteString)
  | eom
  | read (length : Nat)
  | close

/-- The array that `create_headers` allocates for the trailers that `flush` hands over, if it
does, with `nvlen` entries. -/
def trailersNva (nvlen : Nat) (trailers : Option (Multimap ByteString ByteString)) : List NvArray :=
  (trailers.map fun t => .fill nvlen t.entries).toList

theorem trailersNva_inBounds_iff {P : Prop} [Decidable P] (nvlen : Nat)
    (trailers : Multimap ByteString ByteString) :
    (∀ a ∈ trailersNva nvlen (if P then some trailers else none), a.InBounds) ↔
      (P → trailers.entries.length ≤ nvlen) := by
  by_cases hOver : P
  · simp [trailersNva, hOver, NvArray.inBounds_fill_iff]
  · simp [trailersNva, hOver]

namespace Stream

/-- The trailers that `flush` submits. -/
def handed (s : Stream) : Option (Multimap ByteString ByteString) :=
  match s.flush.2 with
  | some (.submitTrailer trailers) => some trailers
  | _ => none

/-- The body has been sent up to its end and there is nothing else to flush. -/
def HandsOver (s : Stream) : Prop :=
  s.closed = false ∧ s.status ≠ 101 ∧ s.resumeNeeded = false ∧ s.headersSent = true ∧
    s.bodySent = true ∧ s.eof = true

instance (s : Stream) : Decidable s.HandsOver := inferInstanceAs (Decidable (_ ∧ _))

theorem handed_eq (s : Stream) : s.handed = if s.HandsOver then some s.trailers else none := by
  unfold handed flush HandsOver
  by_cases hClosed : s.closed = true
  · simp [hClosed]
  by_cases hStatus : s.status = 101
  · simp [hClosed, hStatus]
  by_cases hResume : s.resumeNeeded = true
  · simp [hClosed, hStatus, hResume]
  by_cases hHeaders : s.headersSent = true
  · by_cases hSent : s.bodySent = true ∧ s.eof = true
    · simp [hClosed, hStatus, hResume, hHeaders, hSent]
    · simp [hClosed, hStatus, hResume, hHeaders, hSent]
  · simp [hClosed, hStatus, hResume, hHeaders]

end Stream

namespace StreamClient

/-- The trailers that `flush` submits. -/
def handed (s : StreamClient) : Option (Multimap ByteString ByteString) :=
  match s.flush.2 with
  | some (.submitTrailer trailers) => some trailers
  | _ => none

/-- The body has been sent up to its end and there is nothing else to flush. -/
def HandsOver (s : StreamClient) : Prop :=
  s.closed = false ∧ s.status ≠ 101 ∧ s.resumeNeeded = false ∧ s.headersSent = true ∧
    s.bodySent = true ∧ s.eof = true

instance (s : StreamClient) : Decidable s.HandsOver := inferInstanceAs (Decidable (_ ∧ _))

theorem handed_eq (s : StreamClient) : s.handed = if s.HandsOver then some s.trailers else none := by
  unfold handed flush HandsOver
  by_cases hClosed : s.closed = true
  · simp [hClosed]
  by_cases hStatus : s.status = 101
  · simp [hClosed, hStatus]
  by_cases hResume : s.resumeNeeded = true
  · simp [hClosed, hStatus, hResume]
  by_cases hHeaders : s.headersSent = true
  · by_cases hSent : s.bodySent = true ∧ s.eof = true
    · simp [hClosed, hStatus, hResume, hHeaders, hSent]
    · simp [hClosed, hStatus, hResume, hHeaders, hSent]
  · simp [hClosed, hStatus, hResume, hHeaders]

end StreamClient

namespace HeaderStream

/-- The stream that `flush` sees in a call, where it is called. -/
def flushed (s : HeaderStream) : HeaderOp HttpResponse → Option HeaderStream
  | .header resp => some (s.prepare resp)
  | .body data => some { s with stream := { s.stream with body := s.stream.body ++ [data] } }
  | .eom =>
      if s.stream.closed then none else some { s with stream := { s.stream with eof := true } }
  | _ => none

def step (s : HeaderStream) : HeaderOp HttpResponse → Option HeaderStream
  | .header resp => some { s.prepare resp with stream := (s.prepare resp).stream.flush.1 }
  | .body data => some { s with stream := (s.stream.onBody data).1 }
  | .trailer key value => some { s with stream := s.stream.onTrailer key value }
  | .eom => some { s with stream := s.stream.onEom.1 }
  | .read length => some { s with stream := (s.stream.dataSourceReadCallback length).2 }
  | .close => some { s with stream := s.stream.die.1 }

/-- The array that `on_header` fills. -/
def headersNva (s : HeaderStream) : HeaderOp HttpResponse → List NvArray
  | .header resp => [(s.prepare resp).nva]
  | _ => []

/-- The arrays that are filled in a call. -/
def arrays (s : HeaderStream) (op : HeaderOp HttpResponse) : List NvArray :=
  s.headersNva op ++ ((s.flushed op).map fun t => trailersNva t.nvlen t.stream.handed).getD []

/-- If the trailers are handed over in a call, there are no more of them than headers. -/
def TrailersFit (s : HeaderStream) (op : HeaderOp HttpResponse) : Prop :=
  ∀ t, s.flushed op = some t → t.stream.HandsOver → t.stream.trailers.entries.length ≤ t.nvlen

/-- The headers have room in their array. -/
theorem headersNva_inBounds (s : HeaderStream) (op : HeaderOp HttpResponse) :
    ∀ a ∈ s.headersNva op, a.InBounds := by
  cases op with
  | header resp =>
      intro a hMem
      rw [List.mem_singleton.mp hMem, prepare]
      exact (NvArray.inBounds_fill_iff _ _).mpr (Nat.le_refl _)
  | body data => exact fun a hMem => absurd hMem List.not_mem_nil
  | trailer key value => exact fun a hMem => absurd hMem List.not_mem_nil
  | eom => exact fun a hMem => absurd hMem List.not_mem_nil
  | read length => exact fun a hMem => absurd hMem List.not_mem_nil
  | close => exact fun a hMem => absurd hMem List.not_mem_nil

theorem arrays_inBounds_iff (s : HeaderStream) (op : HeaderOp HttpResponse) :
    (∀ a ∈ s.arrays op, a.InBounds) ↔ s.TrailersFit op := by
  have hHeaders := s.headersNva_inBounds op
  rw [arrays, List.forall_mem_append, TrailersFit]
  cases hFlushed : s.flushed op with
  | none => simpa using hHeaders
  | some t =>
      have hTrailers := trailersNva_inBounds_iff (P := t.stream.HandsOver) t.nvlen t.stream.trailers
      rw [← Stream.handed_eq] at hTrailers
      simp only [Option.map_some, Option.getD_some, hTrailers, Option.some.injEq, forall_eq']
      exact ⟨fun h => h.2, fun h => ⟨hHeaders, h⟩⟩

end HeaderStream

namespace HeaderStreamClient

/-- The stream that `flush` sees in a call, where it is called. -/
def flushed (s : HeaderStreamClient) : HeaderOp HttpRequest → Option HeaderStreamClient
  | .header req => s.prepare req
  | .body data => some { s with stream := { s.stream with body := s.stream.body ++ [data] } }
  | .eom =>
      if s.stream.closed then none else some { s with stream := { s.stream with eof := true } }
  | _ => none

/-- One call; none if an assertion fails. -/
def step (s : HeaderStreamClient) : HeaderOp HttpRequest → Option HeaderStreamClient
  | .header req => (s.prepare req).map fun t => { t with stream := t.stream.flush.1 }
  | .body data => some { s with stream := (s.stream.onBody data).1 }
  | .trailer key value => some { s with stream := s.stream.onTrailer key value }
  | .eom => some { s with stream := s.stream.onEom.1 }
  | .read length => some { s with stream := (s.stream.dataSourceReadCallback length).2 }
  | .close => some { s with stream := s.stream.die.1 }

/-- The array that `on_header` fills. -/
def headersNva (s : HeaderStreamClient) : HeaderOp HttpRequest → List NvArray
  | .header req => ((s.prepare req).map (·.nva)).toList
  | _ => []

/-- The arrays that are filled in a call. -/
def arrays (s : HeaderStreamClient) (op : HeaderOp HttpRequest) : List NvArray :=
  s.headersNva op ++ ((s.flushed op).map fun t => trailersNva t.nvlen t.stream.handed).getD []

/-- If the trailers are handed over in a call, there are no more of them than headers, with the
pseudo-headers. -/
def TrailersFit (s : HeaderStreamClient) (op : HeaderOp HttpRequest) : Prop :=
  ∀ t, s.flushed op = some t → t.stream.HandsOver → t.stream.trailers.entries.length ≤ t.nvlen

/-- The headers and the pseudo-headers have room in their array. -/
theorem headersNva_inBounds (s : HeaderStreamClient) (op : HeaderOp HttpRequest) :
    ∀ a ∈ s.headersNva op, a.InBounds := by
  cases op with
  | header req =>
      intro a hMem
      simp only [headersNva, Option.mem_toList, Option.map_eq_some_iff] at hMem
      obtain ⟨t, hPrepared, rfl⟩ := hMem
      unfold prepare at hPrepared
      dsimp only at hPrepared
      split at hPrepared
      case isFalse => cases hPrepared
      case isTrue =>
        rw [← Option.some.inj hPrepared]
        apply (NvArray.inBounds_fill_iff _ _).mpr
        rw [List.length_append, Nat.add_comm]
        exact Nat.le_refl _
  | body data => exact fun a hMem => absurd hMem List.not_mem_nil
  | trailer key value => exact fun a hMem => absurd hMem List.not_mem_nil
  | eom => exact fun a hMem => absurd hMem List.not_mem_nil
  | read length => exact fun a hMem => absurd hMem List.not_mem_nil
  | close => exact fun a hMem => absurd hMem List.not_mem_nil

theorem arrays_inBounds_iff (s : HeaderStreamClient) (op : HeaderOp HttpRequest) :
    (∀ a ∈ s.arrays op, a.InBounds) ↔ s.TrailersFit op := by
  have hHeaders := s.headersNva_inBounds op
  rw [arrays, List.forall_mem_append, TrailersFit]
  cases hFlushed : s.flushed op with
  | none => simpa using hHeaders
  | some t =>
      have hTrailers := trailersNva_inBounds_iff (P := t.stream.HandsOver) t.nvlen t.stream.trailers
      rw [← StreamClient.handed_eq] at hTrailers
      simp only [Option.map_some, Option.getD_some, hTrailers, Option.some.injEq, forall_eq']
      exact ⟨fun h => h.2, fun h => ⟨hHeaders, h⟩⟩

end HeaderStreamClient

/-- Along the calls on a stream, and on the stream of a client, nothing is written past the end
of an array if and only if no more trailers are handed over than there are headers. -/
theorem arrays_in_bounds_iff (s : HeaderStream) (ops : List (HeaderOp HttpResponse))
    (c : HeaderStreamClient) (cops : List (HeaderOp HttpRequest)) :
    ((∀ a ∈ Runs.outputs HeaderStream.step HeaderStream.arrays s ops, a.InBounds) ↔
      Runs.Heeds HeaderStream.step HeaderStream.TrailersFit s ops) ∧
    ((∀ a ∈ Runs.outputs HeaderStreamClient.step HeaderStreamClient.arrays c cops, a.InBounds) ↔
      Runs.Heeds HeaderStreamClient.step HeaderStreamClient.TrailersFit c cops) := by
  constructor
  · exact Runs.forall_outputs_iff (fun _ => HeaderStream.arrays_inBounds_iff _ _) s ops
  · exact Runs.forall_outputs_iff (fun _ => HeaderStreamClient.arrays_inBounds_iff _ _) c cops

/-- Three trailers do not fit where there are two headers. -/
theorem trailers_past_the_end :
    ¬ ∀ (s : HeaderStream) (ops : List (HeaderOp HttpResponse)),
      ∀ a ∈ Runs.outputs HeaderStream.step HeaderStream.arrays s ops, a.InBounds := by
  intro hAll
  have hBounds := hAll (.init 0)
    [.header ((HttpResponse.fresh 0).setStatus 200), .trailer (ofString "a") [],
      .trailer (ofString "b") [], .trailer (ofString "c") [], .read 1, .eom]
  exact absurd hBounds (by decide +kernel)

end Doormat.Http2
