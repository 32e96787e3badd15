import Doormat.Http.Mutation

/-! What the header map of a message holds, told by the values that were written, the keys that
were removed and the predicates that were filtered with. -/
namespace Doormat.Http

open Bytes Runs

/-- What happens to the header map. -/
inductive Edit
  | write (key value : ByteString)
  | remove (key : ByteString)
  | filter (predicate : ByteString × ByteString → Bool)

namespace Edit

/-- What an edit does to the record of the values written under a key since it was last removed.
Each value is marked once a filter has dropped it. -/
def note (key : ByteString) (record : List (ByteString × Bool)) : Edit → List (ByteString × Bool)
  | .write other value => if other = key then record ++ [(value, false)] else record
  | .remove other => if other = key then [] else record
  | .filter predicate => record.map fun entry => (entry.1, entry.2 || predicate (key, entry.1))

/-- The values written under a key since it was last removed. -/
def written (key : ByteString) (log : List Edit) : List (ByteString × Bool) :=
  log.foldl (note key) []

/-- Those that no filter has dropped. -/
def kept (key : ByteString) (log : List Edit) : List ByteString :=
  ((written key log).filter fun entry => !entry.2).map Prod.fst

/-- The last one, if no filter has dropped it. -/
def lastKept (key : ByteString) (log : List Edit) : List ByteString :=
  (((written key log).getLast?.toList).filter fun entry => !entry.2).map Prod.fst

end Edit

namespace StructuredData

/-- `filter(predicate)`. -/
def filter (d : StructuredData) (predicate : ByteString × ByteString → Bool) : StructuredData :=
  { d with headers := d.headers.drop predicate }

/-- The keys under which there is at most one entry. -/
def oneEntry : List ByteString := hfContentLen :: singleValued

/-- The map holds what the record of the edits tells. -/
structure Mirrors (log : List Edit) (headers : Multimap ByteString ByteString) : Prop where
  lowercase : ∀ e ∈ headers.entries, lower e.1 = e.1
  single : ∀ key ∈ oneEntry, headers.values key = Edit.lastKept key log
  many : ∀ key ∉ oneEntry, key ≠ hfTransferEncoding → headers.values key = Edit.kept key log

/-- A call of a mutator, of `remove_header` or of `filter`. -/
inductive HeaderCall
  | mutator (m : Mutation)
  | removeHeader (key : ByteString)
  | filter (predicate : ByteString × ByteString → Bool)

/-- The edits of `header`. A chunked coding takes the place of the framing headers. -/
def headerEdits (lowercaseKey value : ByteString) : List Edit :=
  if lowercaseKey = hfTransferEncoding ∧ icompare value (ofString "chunked") then
    [.remove hfTransferEncoding, .remove hfContentLen, .write lowercaseKey value]
  else [.write lowercaseKey value]

/-- The edits of a mutator, with those of the calls that it makes itself. -/
def mutatorEdits (d : StructuredData) : Mutation → List Edit
  | .header key value => headerEdits (lower key) value
  | .chunked val =>
      if val = d.chunked then []
      else if val then headerEdits hfTransferEncoding hvChunked
      else [.remove hfTransferEncoding]
  | .contentLen val => [.remove hfContentLen, .write hfContentLen (numeral val.toNat)]
  | .keepalive val => [.write hfConnection (if val then hvKeepalive else hvConnectionClose)]
  | .protocol val =>
      if d.protocolVersion = val ∨ d.defaultKeepalive = false then []
      else if val = .HTTP10 then [.remove hfConnection, .write hfConnection hvConnectionClose]
      else [.remove hfConnection]

/-- A message together with all edits of its header map. -/
structure Edited where
  message : StructuredData
  log : List Edit

/-- A new message: its constructor has written two headers. -/
def Edited.fresh : Edited :=
  { message := StructuredData.fresh
    log := [.write hfContentLen (ofString "0"), .write hfConnection hvConnectionClose] }

def Edited.step (s : Edited) : HeaderCall → Option Edited
  | .mutator m =>
      (s.message.mutate m).map fun d => { message := d, log := s.log ++ s.message.mutatorEdits m }
  | .removeHeader key =>
      some { message := s.message.removeHeader key, log := s.log ++ [.remove key] }
  | .filter predicate =>
      some { message := s.message.filter predicate, log := s.log ++ [.filter predicate] }

end StructuredData

namespace Edit

variable {key other value : ByteString} {log : List Edit}
  {predicate : ByteString × ByteString → Bool}

theorem written_snoc (key : ByteString) (log : List Edit) (edit : Edit) :
    written key (log ++ [edit]) = note key (written key log) edit := by
  simp [written]

@[simp] theorem kept_write_self : kept key (log ++ [.write key value]) = kept key log ++ [value] := by
  simp [kept, written_snoc, note]

@[simp] theorem kept_write_of_ne (h : other ≠ key) :
    kept key (log ++ [.write other value]) = kept key log := by
  simp [kept, written_snoc, note, h]

@[simp] theorem kept_remove_self : kept key (log ++ [.remove key]) = [] := by
  simp [kept, written_snoc, note]

@[simp] theorem kept_remove_of_ne (h : other ≠ key) :
    kept key (log ++ [.remove other]) = kept key log := by
  simp [kept, written_snoc, note, h]

/-- A filter drops the values that it is true of from those that are left. -/
theorem left_filter (record : List (ByteString × Bool)) (drops : ByteString → Bool) :
    ((record.map fun entry => (entry.1, entry.2 || drops entry.1)).filter
        fun entry => !entry.2).map Prod.fst =
      ((record.filter fun entry => !entry.2).map Prod.fst).filter fun value => !drops value := by
  induction record with
  | nil => rfl
  | cons entry rest ih =>
      obtain ⟨value, dropped⟩ := entry
      cases dropped <;> cases hDrops : drops value <;> simp [hDrops, ih]

@[simp] theorem kept_filter :
    kept key (log ++ [.filter predicate]) =
      (kept key log).filter fun value => !predicate (key, value) := by
  rw [kept, written_snoc]
  exact left_filter (written key log) fun value => predicate (key, value)

@[simp] theorem lastKept_write_self : lastKept key (log ++ [.write key value]) = [value] := by
  simp [lastKept, written_snoc, note]

@[simp] theorem lastKept_write_of_ne (h : other ≠ key) :
    lastKept key (log ++ [.write other value]) = lastKept key log := by
  simp [lastKept, written_snoc, note, h]

@[simp] theorem lastKept_remove_self : lastKept key (log ++ [.remove key]) = [] := by
  simp [lastKept, written_snoc, note]

@[simp] theorem lastKept_remove_of_ne (h : other ≠ key) :
    lastKept key (log ++ [.remove other]) = lastKept key log := by
  simp [lastKept, written_snoc, note, h]

@[simp] theorem lastKept_filter :
    lastKept key (log ++ [.filter predicate]) =
      (lastKept key log).filter fun value => !predicate (key, value) := by
  rw [lastKept, written_snoc, note, List.getLast?_map, Option.toList_map]
  exact left_filter (written key log).getLast?.toList fun value => predicate (key, value)

end Edit

namespace StructuredData

variable {log : List Edit} {headers : Multimap ByteString ByteString} {key value : ByteString}

theorem Mirrors.erase (h : Mirrors log headers) (key : ByteString) :
    Mirrors (log ++ [.remove key]) (headers.erase key) := by
  constructor
  · intro e he
    exact h.lowercase e (Multimap.mem_erase.mp he).1
  · intro other hOther
    by_cases hKey : key = other
    · rw [hKey, Multimap.values_erase_self, Edit.lastKept_remove_self]
    · rw [Multimap.values_erase_of_ne _ hKey, Edit.lastKept_remove_of_ne hKey, h.single other hOther]
  · intro other hOther hCoding
    by_cases hKey : key = other
    · rw [hKey, Multimap.values_erase_self, Edit.kept_remove_self]
    · rw [Multimap.values_erase_of_ne _ hKey, Edit.kept_remove_of_ne hKey,
        h.many other hOther hCoding]

theorem Mirrors.drop (h : Mirrors log headers) (predicate : ByteString × ByteString → Bool) :
    Mirrors (log ++ [.filter predicate]) (headers.drop predicate) := by
  constructor
  · intro e he
    exact h.lowercase e (Multimap.mem_drop.mp he).1
  · intro other hOther
    rw [Multimap.values_drop, Edit.lastKept_filter, h.single other hOther]
  · intro other hOther hCoding
    rw [Multimap.values_drop, Edit.kept_filter, h.many other hOther hCoding]

/-- A key that may have several entries, or one that has none, takes a value. -/
theorem Mirrors.insert (h : Mirrors log headers) (hLower : lower key = key)
    (hNone : key ∈ oneEntry → headers.values key = []) :
    Mirrors (log ++ [.write key value]) (headers.insert key value) := by
  constructor
  · intro e he
    rcases Multimap.mem_insert.mp he with rfl | hOld
    · exact hLower
    · exact h.lowercase e hOld
  · intro other hOther
    by_cases hKey : key = other
    · subst hKey
      rw [Multimap.values_insert_self, hNone hOther, Edit.lastKept_write_self]
      rfl
    · rw [Multimap.values_insert_of_ne _ _ hKey, Edit.lastKept_write_of_ne hKey,
        h.single other hOther]
  · intro other hOther hCoding
    by_cases hKey : key = other
    · subst hKey
      rw [Multimap.values_insert_self, Edit.kept_write_self, h.many key hOther hCoding]
    · rw [Multimap.values_insert_of_ne _ _ hKey, Edit.kept_write_of_ne hKey,
        h.many other hOther hCoding]

/-- A new value under a key that has one entry replaces the old. -/
theorem Mirrors.replace (h : Mirrors log headers) (hLower : lower key = key)
    (hKey : key ∈ oneEntry) :
    Mirrors (log ++ [.write key value]) ((headers.erase key).insert key value) := by
  constructor
  · intro e he
    rcases Multimap.mem_insert.mp he with rfl | hOld
    · exact hLower
    · exact h.lowercase e (Multimap.mem_erase.mp hOld).1
  · intro other hOther
    by_cases hEq : key = other
    · subst hEq
      rw [Multimap.values_insert_self, Multimap.values_erase_self, Edit.lastKept_write_self]
      rfl
    · rw [Multimap.values_insert_of_ne _ _ hEq, Multimap.values_erase_of_ne _ hEq,
        Edit.lastKept_write_of_ne hEq, h.single other hOther]
  · intro other hOther hCoding
    have hEq : key ≠ other := fun hEq => hOther (hEq ▸ hKey)
    rw [Multimap.values_insert_of_ne _ _ hEq, Multimap.values_erase_of_ne _ hEq,
      Edit.kept_write_of_ne hEq, h.many other hOther hCoding]

/-! ### The mutators -/

theorem Mirrors.storeHeader {d : StructuredData} (h : Mirrors log d.headers)
    (hLower : lower key = key) (hKey : key ≠ hfContentLen) :
    Mirrors (log ++ headerEdits key value) (d.storeHeader key value).headers := by
  by_cases hSingle : key ∈ singleValued
  · have hCoding : ¬ (key = hfTransferEncoding ∧ icompare value (ofString "chunked") = true) := by
      intro hCoding
      rw [hCoding.1] at hSingle
      exact absurd hSingle (by decide)
    rw [StructuredData.storeHeader, if_pos hSingle, headerEdits, if_neg hCoding]
    exact h.replace hLower (List.mem_cons_of_mem _ hSingle)
  · have hMany : key ∉ oneEntry := by
      intro hOne
      rcases List.mem_cons.mp hOne with hLength | hMore
      · exact hKey hLength
      · exact hSingle hMore
    rw [StructuredData.storeHeader, if_neg hSingle, headerEdits]
    split
    · have hErased := (h.erase hfTransferEncoding).erase hfContentLen
      have hInserted : Mirrors (log ++ [.remove hfTransferEncoding] ++ [.remove hfContentLen] ++
          [.write key value]) (((d.headers.erase hfTransferEncoding).erase hfContentLen).insert key
            value) := hErased.insert hLower fun hOne => absurd hOne hMany
      rw [List.append_assoc, List.append_assoc] at hInserted
      exact hInserted
    · exact h.insert hLower (fun hOne => absurd hOne hMany)

/-- A length is written over the old one. -/
theorem Mirrors.declareLength {d : StructuredData} (h : Mirrors log d.headers) (length : Nat)
    (value : ByteString) :
    Mirrors (log ++ [.write hfContentLen value]) (d.declareLength length value).headers :=
  h.replace (by decide) (by decide)

theorem Mirrors.header {d d' : StructuredData} (h : Mirrors log d.headers)
    (hStep : (d.header key value).toOption = some d') :
    Mirrors (log ++ headerEdits (lower key) value) d'.headers := by
  by_cases hKey : lower key = hfContentLen
  · obtain ⟨length, -, rfl⟩ := (header_contentLen hKey).mp hStep
    have hCoding : ¬ (hfContentLen = hfTransferEncoding ∧
        icompare value (ofString "chunked") = true) := fun hNot => hfTransferEncoding_ne hNot.1.symm
    rw [hKey, headerEdits, if_neg hCoding]
    exact h.declareLength length value
  · rw [header_other hKey, Option.some.injEq] at hStep
    subst hStep
    exact h.storeHeader (lower_lower key) hKey

theorem Mirrors.setProtocol {d : StructuredData} (h : Mirrors log d.headers) (val : ProtoVersion) :
    Mirrors (log ++ d.mutatorEdits (.protocol val)) (d.setProtocol val).headers := by
  have hConnection : lower hfConnection = hfConnection := by decide
  have hErased := h.erase hfConnection
  have hClosed : Mirrors (log ++ [.remove hfConnection, .write hfConnection hvConnectionClose])
      ((d.headers.erase hfConnection).erase hfConnection |>.insert hfConnection
        hvConnectionClose) := by
    have hWritten : Mirrors (log ++ [.remove hfConnection] ++
        [.write hfConnection hvConnectionClose]) ((d.headers.erase hfConnection).erase
          hfConnection |>.insert hfConnection hvConnectionClose) :=
      hErased.replace hConnection (by decide)
    rw [List.append_assoc] at hWritten
    exact hWritten
  rw [StructuredData.setProtocol, mutatorEdits]
  by_cases hSame : d.protocolVersion = val
  · rw [if_pos hSame, if_pos (Or.inl hSame), List.append_nil]
    exact h
  · rw [if_neg hSame]
    by_cases hDefault : d.defaultKeepalive = true
    · have hNot : ¬ (d.protocolVersion = val ∨ d.defaultKeepalive = false) := by
        simp [hSame, hDefault]
      rw [if_neg hNot]
      dsimp only
      rw [if_pos hDefault]
      cases val with
      | HTTP10 => exact hClosed
      | HTTP11 => exact hErased
      | HTTP20 => exact hErased
      | UNSET => exact hErased
    · dsimp only
      rw [if_pos (Or.inr (Bool.eq_false_iff.mpr hDefault)), if_neg hDefault, List.append_nil]
      exact h

theorem Mirrors.mutate {d d' : StructuredData} (h : Mirrors log d.headers) {m : Mutation}
    (hStep : d.mutate m = some d') : Mirrors (log ++ d.mutatorEdits m) d'.headers := by
  cases m with
  | header key value => exact h.header hStep
  | chunked val =>
      cases hStep
      rw [StructuredData.setChunked, mutatorEdits]
      by_cases hSame : val = d.chunked
      · rw [if_pos hSame, if_pos hSame, List.append_nil]
        exact h
      · rw [if_neg hSame, if_neg hSame]
        cases val with
        | true =>
            have hLower : lower hfTransferEncoding = hfTransferEncoding := by decide
            have hStored : Mirrors (log ++ headerEdits hfTransferEncoding hvChunked)
                (d.storeHeader hfTransferEncoding hvChunked).headers :=
              h.storeHeader hLower hfTransferEncoding_ne
            exact hStored
        | false => exact h.erase hfTransferEncoding
  | contentLen val =>
      rw [StructuredData.mutate, StructuredData.setContentLen] at hStep
      split at hStep
      · cases hStep
      · have hErased : Mirrors (log ++ [.remove hfContentLen])
            (({ d with contentLen := val.toNat } : StructuredData).removeHeader
              hfContentLen).headers := h.erase hfContentLen
        have hWritten := hErased.header hStep
        have hEdits : headerEdits (lower hfContentLen) (numeral val.toNat) =
            [.write hfContentLen (numeral val.toNat)] := by
          have hLower : lower hfContentLen = hfContentLen := by decide
          rw [hLower, headerEdits, if_neg]
          intro hNot
          exact hfTransferEncoding_ne hNot.1.symm
        rw [hEdits, List.append_assoc] at hWritten
        exact hWritten
  | keepalive val =>
      cases hStep
      have hLower : lower hfConnection = hfConnection := by decide
      have hNe : hfConnection ≠ hfContentLen := by decide
      have hSet : Mirrors log
          ({ d with keepalive := val, defaultKeepalive := false } : StructuredData).headers := h
      exact hSet.storeHeader hLower hNe
  | protocol val =>
      cases hStep
      exact h.setProtocol val

theorem mirrors_fresh : Mirrors Edited.fresh.log Edited.fresh.message.headers := by
  have hEmpty : Mirrors [] Multimap.empty := by
    constructor
    · intro e he
      cases he
    · intro key _
      rfl
    · intro key _ _
      rfl
  have hLower : lower hfContentLen = hfContentLen := by decide
  have hConnection : lower hfConnection = hfConnection := by decide
  have hLength : Mirrors [.write hfContentLen (ofString "0")]
      (Multimap.empty.insert hfContentLen (ofString "0")) := hEmpty.insert hLower fun _ => rfl
  exact hLength.replace hConnection (by decide)

/-- The calls that return. -/
def Edited.Takes (s : Edited) : HeaderCall → Prop
  | .mutator m => s.message.Takes m
  | .removeHeader _ => True
  | .filter _ => True

theorem Edited.step_iff_takes (s : Edited) (call : HeaderCall) :
    (∃ t, s.step call = some t) ↔ s.Takes call := by
  cases call with
  | mutator m =>
      rw [Takes, ← mutate_iff_takes, ← Option.isSome_iff_exists, ← Option.isSome_iff_exists, step,
        Option.isSome_map]
  | removeHeader key => exact iff_of_true ⟨_, rfl⟩ trivial
  | filter predicate => exact iff_of_true ⟨_, rfl⟩ trivial

/-- Throughout every run of calls on a new message its header map holds what the record of
the edits tells. The run comes to its end if and only if each length is read and each assertion
holds. -/
theorem headers_mirrored (calls : List HeaderCall) :
    Throughout Edited.step (fun s => Mirrors s.log s.message.headers) Edited.fresh calls ∧
      ((∃ s, run Edited.step Edited.fresh calls = some s) ↔
        Admits Edited.step Edited.Takes Edited.fresh calls) := by
  refine ⟨?_, run_iff_admits Edited.step_iff_takes Edited.fresh calls⟩
  apply throughout_of_step
  · intro s call t h hStep
    cases call with
    | mutator m =>
        simp only [Edited.step, Option.map_eq_some_iff] at hStep
        obtain ⟨d, hMutate, rfl⟩ := hStep
        exact h.mutate hMutate
    | removeHeader key =>
        cases hStep
        exact h.erase key
    | filter predicate =>
        cases hStep
        exact h.drop predicate
  · exact mirrors_fresh

/-- A field written twice, a length, a field removed, and a filter that drops one of two values. -/
theorem headers_mirrored_filtered :
    ∃ s, run Edited.step Edited.fresh
        [.mutator (.header (ofString "X") (ofString "a")), .mutator (.header (ofString "x") (ofString "b")),
          .mutator (.contentLen 7), .removeHeader (ofString "connection"),
          .filter fun e => e.2 = ofString "a"] = some s ∧
      s.message.getHeaders (ofString "x") = [ofString "b"] ∧ Mirrors s.log s.message.headers := by
  obtain ⟨s, hRun, hValues⟩ := Option.map_eq_some_iff.mp
    (by decide +kernel : (run Edited.step Edited.fresh
        [.mutator (.header (ofString "X") (ofString "a")), .mutator (.header (ofString "x") (ofString "b")),
          .mutator (.contentLen 7), .removeHeader (ofString "connection"),
          .filter fun e => e.2 = ofString "a"]).map (fun s => s.message.getHeaders (ofString "x")) =
      some [ofString "b"])
  exact ⟨s, hRun, hValues, (headers_mirrored _).1.last hRun⟩

end StructuredData

end Doormat.Http
