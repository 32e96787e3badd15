import Doormat.Library.Displace
import Doormat.Http.Mutation

/-! The fields of a block of headers, and what is left of them in a new message that is given one
after the other by `header`. -/
namespace Doormat.Http2

open Bytes Doormat.Http Displace Multimap

/-- A field that is not a pseudo-header. -/
structure RegularField where
  name : ByteString
  value : ByteString
  regular : name.head? ≠ some ':'.toUInt8

namespace RegularField

def pair (f : RegularField) : ByteString × ByteString := (f.name, f.value)

/-- The field as a message holds it: names are compared without regard to their case. -/
def entry (f : RegularField) : ByteString × ByteString := (lower f.name, f.value)

/-- Does the field declare a chunked body? -/
def IsChunked (f : RegularField) : Prop :=
  lower f.name = hfTransferEncoding ∧ StructuredData.isChunkedCoding f.value = true

end RegularField

/-- The message has these entries and no others: under each name the values in their order. -/
def HasEntries (d : StructuredData) (entries : List (ByteString × ByteString)) : Prop :=
  ∀ key, d.getHeaders key = valuesIn entries key

/-- The values of the content lengths read as numbers. -/
def Readable (fields : List RegularField) : Prop :=
  ∀ f ∈ fields, lower f.name = hfContentLen → ∃ n, stoull f.value = .ok n

/-- No field takes the place of an earlier one, and one takes that of the `content-length: 0` with
which a message starts. -/
structure Lasting (fields : List RegularField) : Prop where
  single : fields.Pairwise fun f g =>
    lower f.name ∈ StructuredData.singleValued → lower g.name ≠ lower f.name
  length : fields.Pairwise fun f g =>
    lower f.name = hfContentLen → lower g.name ≠ hfContentLen ∧ ¬ g.IsChunked
  coding : fields.Pairwise fun f g => lower f.name = hfTransferEncoding → ¬ g.IsChunked
  framed : ∃ f ∈ fields, lower f.name = hfContentLen ∨ f.IsChunked

/-- The entry of a host that is known apart from the fields. -/
def hostEntry : Option ByteString → List (ByteString × ByteString)
  | none => []
  | some host => [(hfHost, host)]

/-- The entries of a message with these fields. A host that it is for stands for the field that is
not there. -/
def entriesWith (host : Option ByteString) (fields : List RegularField) :
    List (ByteString × ByteString) :=
  (if ∃ f ∈ fields, lower f.name = hfHost then [] else hostEntry host) ++
    fields.map RegularField.entry

@[simp] theorem entriesWith_none (fields : List RegularField) :
    entriesWith none fields = fields.map RegularField.entry := by
  simp [entriesWith, hostEntry]

/-- The fields are given to `header`. There is no message where it throws. -/
def storeFields (d : StructuredData) (fields : List RegularField) : Option StructuredData :=
  Runs.run (fun d (f : RegularField) => (d.header f.name f.value).toOption) d fields

/-- The names whose entries a new one displaces. -/
def displacedNames (new : ByteString × ByteString) : List ByteString :=
  if (hfContentLen :: StructuredData.singleValued).contains new.1 then [new.1]
  else if new.1 = hfTransferEncoding ∧ StructuredData.isChunkedCoding new.2 then
    [hfTransferEncoding, hfContentLen]
  else []

def Displaces (new old : ByteString × ByteString) : Prop := old.1 ∈ displacedNames new

instance : DecidableRel Displaces := fun new old =>
  inferInstanceAs (Decidable (old.1 ∈ displacedNames new))

/-- A new message, as the streams prepare it, starts with `content-length: 0`. -/
theorem hasEntries_new : HasEntries (StructuredData.fresh.setProtocol .HTTP11)
    [(hfContentLen, ofString "0")] := by
  have hEntries : (StructuredData.fresh.setProtocol .HTTP11).headers.entries =
      [(hfContentLen, ofString "0")] := by decide
  intro key
  rw [StructuredData.getHeaders, values_eq, hEntries]

theorem storeFields_isSome_iff (d : StructuredData) (fields : List RegularField) :
    (storeFields d fields).isSome = true ↔ Readable fields :=
  Runs.run_isSome_iff (fun d f => StructuredData.header_isSome_iff d f.name f.value) d fields

section Displacing

variable {d d' : StructuredData} {f : RegularField} {entries : List (ByteString × ByteString)}

theorem displacedNames_single (h : lower f.name ∈ hfContentLen :: StructuredData.singleValued) :
    displacedNames f.entry = [lower f.name] :=
  if_pos (List.contains_iff_mem.mpr h)

theorem displacedNames_chunked (h : f.IsChunked) :
    displacedNames f.entry = [hfTransferEncoding, hfContentLen] := by
  have hMany : lower f.name ∉ hfContentLen :: StructuredData.singleValued := by
    rw [h.1]
    decide
  exact (if_neg fun hIn => hMany (List.contains_iff_mem.mp hIn)).trans (if_pos h)

theorem displacedNames_many (h : lower f.name ∉ hfContentLen :: StructuredData.singleValued)
    (hChunked : ¬ f.IsChunked) : displacedNames f.entry = [] :=
  (if_neg fun hIn => h (List.contains_iff_mem.mp hIn)).trans (if_neg hChunked)

theorem getHeaders_removeAll (names : List ByteString) (d : StructuredData) (key : ByteString) :
    (names.foldl StructuredData.removeHeader d).getHeaders key =
      if key ∈ names then [] else d.getHeaders key := by
  induction names generalizing d with
  | nil => rfl
  | cons name names ih =>
      rw [List.foldl_cons, ih]
      by_cases hKey : name = key
      · simp [hKey]
      · simp [hKey, Ne.symm hKey]

/-- `header` removes the entries that the new one displaces. -/
theorem headers_header (hStep : (d.header f.name f.value).toOption = some d') :
    d'.headers = (((displacedNames f.entry).foldl StructuredData.removeHeader d).insertHeader
      (lower f.name) f.value).headers := by
  by_cases hLength : lower f.name = hfContentLen
  · obtain ⟨length, -, rfl⟩ := (StructuredData.header_contentLen hLength).mp hStep
    rw [displacedNames_single (hLength ▸ List.mem_cons_self), hLength]
    rfl
  rw [StructuredData.header_other hLength, Option.some.injEq] at hStep
  subst hStep
  by_cases hSingle : lower f.name ∈ StructuredData.singleValued
  · rw [displacedNames_single (List.mem_cons_of_mem _ hSingle), StructuredData.storeHeader,
      if_pos hSingle]
    rfl
  have hMany : lower f.name ∉ hfContentLen :: StructuredData.singleValued := by
    rw [List.mem_cons, not_or]
    exact ⟨hLength, hSingle⟩
  by_cases hChunked : f.IsChunked
  · rw [displacedNames_chunked hChunked, hChunked.1, StructuredData.storeHeader_transferEncoding,
      if_pos hChunked.2]
    rfl
  · have hStored : d.storeHeader (lower f.name) f.value = d.insertHeader (lower f.name) f.value :=
      (if_neg hSingle).trans (if_neg hChunked)
    rw [displacedNames_many hMany hChunked, hStored]
    rfl

theorem getHeaders_header (hStep : (d.header f.name f.value).toOption = some d')
    (key : ByteString) :
    d'.getHeaders key =
      (if key ∈ displacedNames f.entry then [] else d.getHeaders key) ++ valuesIn [f.entry] key := by
  rw [StructuredData.getHeaders, headers_header hStep, ← getHeaders_removeAll]
  change StructuredData.getHeaders _ key = _
  by_cases hKey : lower f.name = key
  · rw [← hKey, StructuredData.getHeaders_insertHeader_self]
    congr 1
    exact (valuesIn_cons_self _ _ []).symm
  · have hNone : valuesIn [f.entry] key = [] := valuesIn_cons_of_ne hKey _ []
    rw [StructuredData.getHeaders_insertHeader_of_ne _ _ hKey, hNone, List.append_nil]

theorem valuesIn_place (new : ByteString × ByteString) (key : ByteString) :
    valuesIn (place Displaces entries new) key =
      (if key ∈ displacedNames new then [] else valuesIn entries key) ++ valuesIn [new] key := by
  have hPlace : place Displaces entries new =
      entries.filter (fun e => decide (e.1 ∉ displacedNames new)) ++ [new] := rfl
  rw [hPlace, valuesIn_append, valuesIn_filter_keys fun k => decide (k ∉ displacedNames new)]
  by_cases hGone : key ∈ displacedNames new
  · simp [hGone]
  · simp [hGone]

theorem HasEntries.header (h : HasEntries d entries)
    (hStep : (d.header f.name f.value).toOption = some d') :
    HasEntries d' (place Displaces entries f.entry) := by
  intro key
  rw [getHeaders_header hStep, valuesIn_place, h key]

/-- The entries after all fields. -/
theorem HasEntries.storeFields {fields : List RegularField} (h : HasEntries d entries)
    (hRun : storeFields d fields = some d') :
    HasEntries d' ((fields.map RegularField.entry).foldl (place Displaces) entries) := by
  induction fields generalizing d entries with
  | nil =>
      cases hRun
      exact h
  | cons f fields ih =>
      obtain ⟨next, hStep, hRest⟩ := Runs.run_cons_eq_some.mp hRun
      exact ih (h.header hStep) hRest

end Displacing

section Lasting

variable {f g : RegularField} {fields : List RegularField}

theorem displaces_iff : Displaces g.entry f.entry ↔
    (lower f.name ∈ StructuredData.singleValued ∧ lower g.name = lower f.name) ∨
      (lower f.name = hfContentLen ∧ (lower g.name = hfContentLen ∨ g.IsChunked)) ∨
      (lower f.name = hfTransferEncoding ∧ g.IsChunked) := by
  have hMany : hfTransferEncoding ∉ hfContentLen :: StructuredData.singleValued := by decide
  by_cases hSingle : lower g.name ∈ hfContentLen :: StructuredData.singleValued
  · have hNot : ¬ g.IsChunked := fun h => hMany (h.1 ▸ hSingle)
    rw [Displaces, displacedNames_single hSingle, List.mem_singleton]
    change lower f.name = lower g.name ↔ _
    simp only [hNot, or_false, and_false]
    constructor
    · intro hSame
      rw [← hSame] at hSingle ⊢
      rcases List.mem_cons.mp hSingle with hLength | hOther
      · exact .inr ⟨hLength, hLength⟩
      · exact .inl ⟨hOther, rfl⟩
    · rintro (⟨-, hSame⟩ | ⟨hLeft, hRight⟩)
      · exact hSame.symm
      · rw [hLeft, hRight]
  · have hLength : lower g.name ≠ hfContentLen := fun h => hSingle (h ▸ List.mem_cons_self)
    have hOther : ¬ (lower f.name ∈ StructuredData.singleValued ∧ lower g.name = lower f.name) :=
      fun h => hSingle (List.mem_cons_of_mem _ (h.2 ▸ h.1))
    by_cases hChunked : g.IsChunked
    · rw [Displaces, displacedNames_chunked hChunked]
      change lower f.name ∈ _ ↔ _
      simp only [List.mem_cons, List.not_mem_nil, or_false, hChunked, or_true, and_true, hOther,
        false_or]
      exact Or.comm
    · rw [Displaces, displacedNames_many hSingle hChunked]
      simp [hChunked, hLength, hOther]

theorem pairwise_displaces_iff :
    (fields.map RegularField.entry).Pairwise (fun old new => ¬ Displaces new old) ↔
      fields.Pairwise (fun f g =>
        lower f.name ∈ StructuredData.singleValued → lower g.name ≠ lower f.name) ∧
      fields.Pairwise (fun f g =>
        lower f.name = hfContentLen → lower g.name ≠ hfContentLen ∧ ¬ g.IsChunked) ∧
      fields.Pairwise fun f g => lower f.name = hfTransferEncoding → ¬ g.IsChunked := by
  rw [List.pairwise_map, ← List.pairwise_and_iff, ← List.pairwise_and_iff]
  apply List.Pairwise.iff
  intro f g
  rw [displaces_iff, not_or, not_or, not_and, not_and, not_and, not_or]

theorem displaces_length_iff (value : ByteString) :
    Displaces f.entry (hfContentLen, value) ↔ lower f.name = hfContentLen ∨ f.IsChunked := by
  have hRegular : hfContentLen.head? ≠ some ':'.toUInt8 := by decide
  have hSelf : lower hfContentLen = hfContentLen := by decide
  have hNot : hfContentLen ∉ StructuredData.singleValued := by decide
  have hNe : hfContentLen ≠ hfTransferEncoding := by decide
  have h := displaces_iff (f := ⟨hfContentLen, value, hRegular⟩) (g := f)
  simp only [RegularField.entry, hSelf, hNot, hNe, false_and, or_false, false_or, true_and] at h
  exact h

theorem displaces_host_iff (host : ByteString) :
    Displaces f.entry (hfHost, host) ↔ lower f.name = hfHost := by
  have hRegular : hfHost.head? ≠ some ':'.toUInt8 := by decide
  have hSelf : lower hfHost = hfHost := by decide
  have hSingle : hfHost ∈ StructuredData.singleValued := by decide
  have hLength : hfHost ≠ hfContentLen := by decide
  have hCoding : hfHost ≠ hfTransferEncoding := by decide
  have h := displaces_iff (f := ⟨hfHost, host, hRegular⟩) (g := f)
  simp only [RegularField.entry, hSelf, hSingle, hLength, hCoding, false_and, or_false,
    true_and] at h
  exact h

theorem hostEntry_left (host : Option ByteString) (fields : List RegularField) :
    (hostEntry host).filter
        (fun old => ∀ new ∈ fields.map RegularField.entry, ¬ Displaces new old) =
      if ∃ f ∈ fields, lower f.name = hfHost then [] else hostEntry host := by
  cases host with
  | none => simp [hostEntry]
  | some host =>
      have hIff : (∀ new ∈ fields.map RegularField.entry, ¬ Displaces new (hfHost, host)) ↔
          ¬ ∃ f ∈ fields, lower f.name = hfHost := by
        rw [List.forall_mem_map]
        simp only [displaces_host_iff, not_exists, not_and]
      by_cases hHost : ∃ f ∈ fields, lower f.name = hfHost
      · rw [if_pos hHost, hostEntry, List.filter_cons_of_neg, List.filter_nil]
        simpa only [decide_eq_true_eq, hIff, not_not] using hHost
      · rw [if_neg hHost, hostEntry, List.filter_cons_of_pos, List.filter_nil]
        simpa only [decide_eq_true_eq, hIff] using hHost

/-- A message that starts with `content-length: 0`, and a host, has the entries that its fields
describe exactly if all of them last. -/
theorem storeFields_lasting_iff {d d' : StructuredData} {host : Option ByteString} {zero : ByteString}
    (hStart : HasEntries d ((hfContentLen, zero) :: hostEntry host))
    (hRun : storeFields d fields = some d') :
    HasEntries d' (entriesWith host fields) ↔ Lasting fields := by
  have hFinal := hStart.storeFields hRun
  rw [foldl_place, List.filter_cons, hostEntry_left] at hFinal
  have hGone : (∀ new ∈ fields.map RegularField.entry, ¬ Displaces new (hfContentLen, zero)) ↔
      ¬ ∃ f ∈ fields, lower f.name = hfContentLen ∨ f.IsChunked := by
    rw [List.forall_mem_map]
    simp only [displaces_length_iff, not_exists, not_and]
  have hSettled := @settle_eq_self_iff _ Displaces _ (fields.map RegularField.entry)
  rw [pairwise_displaces_iff] at hSettled
  by_cases hFramed : ∃ f ∈ fields, lower f.name = hfContentLen ∨ f.IsChunked
  · rw [if_neg (by simpa only [decide_eq_true_eq, hGone, not_not] using hFramed)] at hFinal
    constructor
    · intro hEntries
      have hSame : settle Displaces (fields.map RegularField.entry) =
          fields.map RegularField.entry := by
        apply eq_of_sublist_of_valuesIn (settle_sublist _)
        intro key
        have hKey := (hFinal key).symm.trans (hEntries key)
        rw [entriesWith, valuesIn_append, valuesIn_append] at hKey
        exact List.append_cancel_left hKey
      obtain ⟨hSingle, hLength, hCoding⟩ := hSettled.mp hSame
      exact ⟨hSingle, hLength, hCoding, hFramed⟩
    · intro hLasting
      rw [hSettled.mpr ⟨hLasting.single, hLasting.length, hLasting.coding⟩] at hFinal
      exact hFinal
  · rw [if_pos (by simpa only [decide_eq_true_eq, hGone] using hFramed)] at hFinal
    refine iff_of_false ?_ fun hLasting => hFramed hLasting.framed
    -- The length that nobody gave is still there.
    intro hEntries
    have hKey := (hFinal hfContentLen).symm.trans (hEntries hfContentLen)
    have hNone : valuesIn (fields.map RegularField.entry) hfContentLen = [] := by
      rw [valuesIn_eq_nil_iff, List.forall_mem_map]
      exact fun f hf hName => hFramed ⟨f, hf, .inl hName⟩
    rw [entriesWith, List.cons_append, valuesIn_cons_self, valuesIn_append, valuesIn_append, hNone]
      at hKey
    have hLength := congrArg List.length hKey
    simp only [List.length_cons, List.length_append, List.length_nil] at hLength
    omega

end Lasting

end Doormat.Http2
