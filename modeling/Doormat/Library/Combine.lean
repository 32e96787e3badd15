import Doormat.Library.Multimap

/-! Multimaps whose values under one key are joined into one, either by merging the entries
one by one into a map, or by walking along entries that are already in the order of their
keys. -/

namespace Multimap

variable {κ ν : Type*} [LinearOrder κ]

/-- The values under a key, among entries in any order. -/
def valuesIn (entries : List (κ × ν)) (key : κ) : List ν :=
  (entries.filter fun e => e.1 = key).map Prod.snd

theorem values_eq (m : Multimap κ ν) (key : κ) : m.values key = valuesIn m.entries key := rfl

@[simp] theorem valuesIn_nil (key : κ) : valuesIn ([] : List (κ × ν)) key = [] := rfl

@[simp] theorem valuesIn_append (front rest : List (κ × ν)) (key : κ) :
    valuesIn (front ++ rest) key = valuesIn front key ++ valuesIn rest key := by
  simp [valuesIn]

@[simp] theorem valuesIn_cons_self (key : κ) (value : ν) (entries : List (κ × ν)) :
    valuesIn ((key, value) :: entries) key = value :: valuesIn entries key := by
  simp [valuesIn]

@[simp] theorem valuesIn_cons_of_ne {key other : κ} (h : key ≠ other) (value : ν)
    (entries : List (κ × ν)) : valuesIn ((key, value) :: entries) other = valuesIn entries other := by
  simp [valuesIn, h]

theorem valuesIn_eq_nil_iff {entries : List (κ × ν)} {key : κ} :
    valuesIn entries key = [] ↔ ∀ e ∈ entries, e.1 ≠ key := by
  simp [valuesIn, List.filter_eq_nil_iff]

/-- A condition on the keys keeps all values under a key, or none. -/
theorem valuesIn_filter_keys (p : κ → Bool) (entries : List (κ × ν)) (key : κ) :
    valuesIn (entries.filter fun e => p e.1) key = if p key then valuesIn entries key else [] := by
  induction entries with
  | nil => simp
  | cons e rest ih =>
      obtain ⟨other, value⟩ := e
      rw [List.filter_cons]
      by_cases hKey : other = key
      · subst hKey
        by_cases hp : p other = true
        · rw [if_pos hp, valuesIn_cons_self, ih, if_pos hp, if_pos hp, valuesIn_cons_self]
        · rw [if_neg hp, ih, if_neg hp, if_neg hp]
      · rw [valuesIn_cons_of_ne hKey]
        split
        · rw [valuesIn_cons_of_ne hKey, ih]
        · exact ih

theorem mem_keys_iff {entries : List (κ × ν)} {key : κ} :
    key ∈ entries.map Prod.fst ↔ valuesIn entries key ≠ [] := by
  rw [Ne, valuesIn_eq_nil_iff]
  simp

/-- With one value for each key, no key comes twice. -/
theorem nodup_keys {entries : List (κ × ν)} (h : ∀ key, (valuesIn entries key).length ≤ 1) :
    (entries.map Prod.fst).Nodup := by
  induction entries with
  | nil => exact List.nodup_nil
  | cons e rest ih =>
      rw [List.map_cons, List.nodup_cons]
      constructor
      · intro hMem
        have hLength := h e.1
        rw [show valuesIn (e :: rest) e.1 = e.2 :: valuesIn rest e.1 from valuesIn_cons_self e.1 e.2 rest,
          List.length_cons] at hLength
        exact mem_keys_iff.mp hMem (List.eq_nil_of_length_eq_zero (by omega))
      · apply ih
        intro key
        have hSub : (valuesIn rest key).length ≤ (valuesIn (e :: rest) key).length :=
          (((List.sublist_cons_self e rest).filter _).map _).length_le
        exact Nat.le_trans hSub (h key)

/-- A key below all others comes first. -/
theorem entries_of_least {m : Multimap κ ν} {key : κ} {value : ν} (hValues : m.values key = [value])
    (hLeast : ∀ e ∈ m.entries, key ≤ e.1) : ∃ rest, m.entries = (key, value) :: rest := by
  cases hEntries : m.entries with
  | nil => simp [values, hEntries] at hValues
  | cons e rest =>
      have hMem : key ∈ m.entries.map Prod.fst :=
        mem_keys_iff.mpr (by rw [← values_eq, hValues]; exact List.cons_ne_nil _ _)
      have hFirst : e.1 = key := by
        obtain ⟨e', hIn, hKey⟩ := List.mem_map.mp hMem
        have hSorted := m.sorted
        rw [hEntries] at hSorted hIn
        have hAbove : key ≤ e.1 := hLeast e (hEntries ▸ List.mem_cons_self)
        rcases List.mem_cons.mp hIn with hHead | hTail
        · rw [← hHead, hKey]
        · exact le_antisymm (hKey ▸ (List.pairwise_cons.mp hSorted).1 e' hTail) hAbove
      have hValue : e.2 = value := by
        rw [values_eq, hEntries, ← hFirst] at hValues
        have hHead := (valuesIn_cons_self e.1 e.2 rest).symm.trans hValues
        exact (List.cons.inj hHead).1
      exact ⟨rest, by rw [← hFirst, ← hValue]⟩

/-- `find` gives the first value. -/
theorem find?_eq_head? (m : Multimap κ ν) (key : κ) : m.find? key = (m.values key).head? := by
  simp [find?, values, List.head?_map, List.head?_filter]

/-- The values that are left when some keys are dropped. -/
theorem values_drop_keys (m : Multimap κ ν) {p : κ → Bool} (key : κ) :
    (m.drop fun e => p e.1).values key = if p key then [] else m.values key := by
  rw [values_drop]
  cases hDrop : p key with
  | true => simp [hDrop]
  | false => simp [hDrop]

/-- `erase(find(key))`: drop the first entry under the key. -/
def eraseFirst (m : Multimap κ ν) (key : κ) : Multimap κ ν :=
  ⟨m.entries.eraseP fun e => e.1 = key, m.sorted.sublist List.eraseP_sublist⟩

theorem values_eraseFirst_self (m : Multimap κ ν) (key : κ) :
    (m.eraseFirst key).values key = (m.values key).tail := by
  simp only [values, eraseFirst]
  induction m.entries with
  | nil => rfl
  | cons e rest ih =>
      by_cases hKey : e.1 = key
      · simp [List.eraseP_cons_of_pos, hKey]
      · simpa [List.eraseP_cons_of_neg, hKey] using ih

theorem values_eraseFirst_of_ne (m : Multimap κ ν) {key other : κ} (h : key ≠ other) :
    (m.eraseFirst key).values other = m.values other := by
  simp only [values, eraseFirst]
  induction m.entries with
  | nil => rfl
  | cons e rest ih =>
      by_cases hKey : e.1 = key
      · simp [List.eraseP_cons_of_pos, hKey, h]
      · have hKept : (e :: rest).eraseP (fun e => decide (e.1 = key)) =
            e :: rest.eraseP fun e => e.1 = key := List.eraseP_cons_of_neg (by simpa using hKey)
        by_cases hOther : e.1 = other
        · rw [hKept]
          simpa [hOther] using ih
        · rw [hKept]
          simpa [hOther] using ih

/-- Join values from the first on. -/
def combine (join : ν → ν → ν) : List ν → Option ν
  | [] => none
  | value :: values => some (values.foldl join value)

@[simp] theorem combine_nil (join : ν → ν → ν) : combine join ([] : List ν) = none := rfl

/-- One more value is joined to the rest. -/
theorem combine_concat (join : ν → ν → ν) (values : List ν) (last : ν) :
    combine join (values ++ [last]) =
      some (match combine join values with | none => last | some before => join before last) := by
  cases values with
  | nil => rfl
  | cons value values => simp [combine, List.foldl_append]

/-- Put an entry into a map in which it is joined to what is there under its key. -/
def merge (join : ν → ν → ν) (m : Multimap κ ν) (e : κ × ν) : Multimap κ ν :=
  match m.find? e.1 with
  | some before => (m.insert e.1 (join before e.2)).eraseFirst e.1
  | none => m.insert e.1 e.2

variable {join : ν → ν → ν} {m : Multimap κ ν}

theorem values_merge_of_ne (join : ν → ν → ν) (m : Multimap κ ν) (e : κ × ν) {key : κ} (h : e.1 ≠ key) :
    (merge join m e).values key = m.values key := by
  rw [merge]
  split
  · rw [values_eraseFirst_of_ne _ h, values_insert_of_ne _ _ h]
  · rw [values_insert_of_ne _ _ h]

theorem values_merge_self {e : κ × ν} {values : List ν}
    (h : m.values e.1 = (combine join values).toList) :
    (merge join m e).values e.1 = (combine join (values ++ [e.2])).toList := by
  rw [merge, find?_eq_head?, h, combine_concat]
  cases hBefore : combine join values with
  | none =>
      rw [hBefore, Option.toList_none] at h
      simp [h]
  | some before =>
      rw [hBefore, Option.toList_some] at h
      simp [values_eraseFirst_self, h]

/-- After merging, a key has one value: all of its values, joined in the order in which they
came. -/
theorem values_foldl_merge {before : κ → List ν}
    (h : ∀ key, m.values key = (combine join (before key)).toList) (entries : List (κ × ν)) (key : κ) :
    (entries.foldl (merge join) m).values key =
      (combine join (before key ++ valuesIn entries key)).toList := by
  induction entries generalizing m before with
  | nil => simpa using h key
  | cons e rest ih =>
      have hStep : ∀ k, (merge join m e).values k =
          (combine join (before k ++ valuesIn [e] k)).toList := by
        intro k
        by_cases hKey : e.1 = k
        · subst hKey
          rw [show valuesIn [e] e.1 = [e.2] by simp [valuesIn]]
          exact values_merge_self (h e.1)
        · rw [values_merge_of_ne join m e hKey, h k, show valuesIn [e] k = [] by simp [valuesIn, hKey],
            List.append_nil]
      rw [List.foldl_cons, ih hStep, List.append_assoc, ← valuesIn_append]
      rfl

/-- Entries next to each other that have the same key, with their first value and the others. -/
def runs : List (κ × ν) → List (κ × ν × List ν)
  | [] => []
  | (key, value) :: rest =>
      match runs rest with
      | [] => [(key, value, [])]
      | (next, first, others) :: more =>
          if key = next then (key, value, first :: others) :: more
          else (key, value, []) :: (next, first, others) :: more

theorem runs_eq_nil_iff {entries : List (κ × ν)} : runs entries = [] ↔ entries = [] := by
  cases entries with
  | nil => simp [runs]
  | cons e rest =>
      simp only [runs, reduceCtorEq, iff_false]
      split
      · exact List.cons_ne_nil _ _
      · split
        · exact List.cons_ne_nil _ _
        · exact List.cons_ne_nil _ _

theorem mem_runs_key {entries : List (κ × ν)} {r : κ × ν × List ν} (h : r ∈ runs entries) :
    ∃ e ∈ entries, e.1 = r.1 := by
  induction entries with
  | nil => exact absurd h List.not_mem_nil
  | cons e rest ih =>
      rcases e with ⟨key, value⟩
      rw [runs] at h
      split at h
      case h_1 =>
        rw [List.mem_singleton.mp h]
        exact ⟨_, List.mem_cons_self, rfl⟩
      case h_2 next first others more hRest =>
        split at h
        case isTrue =>
          rcases List.mem_cons.mp h with hHead | hTail
          · rw [hHead]
            exact ⟨_, List.mem_cons_self, rfl⟩
          · obtain ⟨e, hMem, hKey⟩ := ih (hRest ▸ List.mem_cons_of_mem _ hTail)
            exact ⟨e, List.mem_cons_of_mem _ hMem, hKey⟩
        case isFalse =>
          rcases List.mem_cons.mp h with hHead | hTail
          · rw [hHead]
            exact ⟨_, List.mem_cons_self, rfl⟩
          · obtain ⟨e, hMem, hKey⟩ := ih (hRest ▸ hTail)
            exact ⟨e, List.mem_cons_of_mem _ hMem, hKey⟩

/-- In the order of the keys there is one run for each key. -/
theorem runs_sorted {entries : List (κ × ν)} (hSorted : entries.Pairwise fun a b => a.1 ≤ b.1) :
    (runs entries).Pairwise fun a b => a.1 < b.1 := by
  induction entries with
  | nil => exact List.Pairwise.nil
  | cons e rest ih =>
      rcases e with ⟨key, value⟩
      obtain ⟨hFirst, hRest⟩ := List.pairwise_cons.mp hSorted
      have hLe : ∀ r ∈ runs rest, key ≤ r.1 := by
        intro r hMem
        obtain ⟨e, hIn, hKey⟩ := mem_runs_key hMem
        exact hKey ▸ hFirst e hIn
      have hLater := ih hRest
      rw [runs]
      split
      case h_1 => exact List.pairwise_singleton _ _
      case h_2 next first others more hRuns =>
        rw [hRuns] at hLater hLe
        obtain ⟨hNext, hMore⟩ := List.pairwise_cons.mp hLater
        split
        case isTrue hKey => exact List.pairwise_cons.mpr ⟨fun r hr => hKey ▸ hNext r hr, hMore⟩
        case isFalse hKey =>
          refine List.pairwise_cons.mpr ⟨?_, hLater⟩
          intro r hr
          have hLt : key < next := lt_of_le_of_ne (hLe _ List.mem_cons_self) hKey
          rcases List.mem_cons.mp hr with hHead | hTail
          · rw [hHead]
            exact hLt
          · exact lt_trans hLt (hNext r hTail)

/-- The run of a key holds its values. -/
theorem filter_runs {entries : List (κ × ν)} (hSorted : entries.Pairwise fun a b => a.1 ≤ b.1) (key : κ) :
    (runs entries).filter (fun r => r.1 = key) =
      match valuesIn entries key with
      | [] => []
      | first :: others => [(key, first, others)] := by
  induction entries with
  | nil => rfl
  | cons e rest ih =>
      rcases e with ⟨head, value⟩
      obtain ⟨hFirst, hRest⟩ := List.pairwise_cons.mp hSorted
      have hLater := ih hRest
      cases hRuns : runs rest with
      | nil =>
          have hNone : rest = [] := runs_eq_nil_iff.mp hRuns
          by_cases hKey : head = key
          · simp [runs, hNone, hKey]
          · simp [runs, hNone, hKey]
      | cons r more =>
          rcases r with ⟨next, first, others⟩
          rw [hRuns] at hLater
          by_cases hKey : head = key
          · subst hKey
            rw [valuesIn_cons_self]
            by_cases hNext : head = next
            · -- The key goes on in the next run.
              subst hNext
              simp only [runs, hRuns, if_true]
              simp only [List.filter_cons_of_pos, decide_true] at hLater ⊢
              cases hValues : valuesIn rest head with
              | nil =>
                  rw [hValues] at hLater
                  exact absurd hLater (List.cons_ne_nil _ _)
              | cons f o =>
                  rw [hValues] at hLater
                  obtain ⟨hSame, hMore⟩ := List.cons.inj hLater
                  obtain ⟨rfl, rfl⟩ := Prod.mk.inj (Prod.mk.inj hSame).2
                  rw [hMore]
            · -- All later keys are above this one.
              have hNone : valuesIn rest head = [] := by
                apply valuesIn_eq_nil_iff.mpr
                intro e hMem hEq
                have hSortedRuns := runs_sorted hRest
                cases hValues : valuesIn rest head with
                | nil => exact valuesIn_eq_nil_iff.mp hValues e hMem hEq
                | cons f o =>
                    rw [hValues] at hLater
                    have hIn : (head, f, o) ∈ (next, first, others) :: more := by
                      have hFiltered : (head, f, o) ∈
                          ((next, first, others) :: more).filter fun r => r.1 = head := by
                        rw [hLater]
                        exact List.mem_singleton.mpr rfl
                      exact List.mem_of_mem_filter hFiltered
                    have hLe : head ≤ next := by
                      have hHead : (next, first, others) ∈ runs rest := hRuns ▸ List.mem_cons_self
                      obtain ⟨e', hMem', hKey'⟩ := mem_runs_key hHead
                      have hNextKey : e'.1 = next := hKey'
                      exact hNextKey ▸ hFirst e' hMem'
                    rw [hRuns] at hSortedRuns
                    rcases List.mem_cons.mp hIn with hHead | hTail
                    · exact hNext (Prod.mk.inj hHead).1
                    · have hLt := (List.pairwise_cons.mp hSortedRuns).1 _ hTail
                      exact absurd hLt (not_lt.mpr hLe)
              rw [hNone] at hLater ⊢
              simp only [runs, hRuns, if_neg hNext]
              rw [List.filter_cons_of_pos (by simp), hLater]
          · rw [valuesIn_cons_of_ne hKey, ← hLater]
            by_cases hNext : head = next
            · subst hNext
              simp [runs, hRuns, hKey]
            · simp [runs, hRuns, hNext, hKey]

/-- The entries of the runs, with the values of each joined. -/
def joinRuns (join : κ → ν → ν → ν) (entries : List (κ × ν)) : List (κ × ν) :=
  (runs entries).map fun r => (r.1, r.2.2.foldl (join r.1) r.2.1)

/-- Along entries in the order of their keys each key has one value, as after merging. -/
theorem valuesIn_joinRuns (join : κ → ν → ν → ν) {entries : List (κ × ν)}
    (hSorted : entries.Pairwise fun a b => a.1 ≤ b.1) (key : κ) :
    valuesIn (joinRuns join entries) key = (combine (join key) (valuesIn entries key)).toList := by
  have hRuns := filter_runs hSorted key
  rw [valuesIn, joinRuns, List.filter_map]
  have hFilter : (runs entries).filter ((fun e : κ × ν => decide (e.1 = key)) ∘
      fun r => (r.1, r.2.2.foldl (join r.1) r.2.1)) = (runs entries).filter fun r => r.1 = key := rfl
  rw [hFilter, hRuns]
  cases valuesIn entries key with
  | nil => rfl
  | cons first others => rfl

end Multimap
