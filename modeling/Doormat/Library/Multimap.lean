import Mathlib.Order.Lattice
import Mathlib.Data.List.Basic

/-! An ordered map that may hold several values under one key. Entries are kept
in the order of their keys, and equal keys in the order in which they came. -/

variable {κ ν : Type*} [LinearOrder κ]

/-- `std::multimap`, as the sequence of its entries. -/
structure Multimap (κ ν : Type*) [LinearOrder κ] where
  entries : List (κ × ν)
  sorted : entries.Pairwise fun a b => a.1 ≤ b.1
deriving DecidableEq

namespace Multimap

def empty : Multimap κ ν := ⟨[], List.Pairwise.nil⟩

instance : Inhabited (Multimap κ ν) := ⟨empty⟩

/-- A new entry goes after the entries with smaller or equal keys. -/
def insertEntries (key : κ) (value : ν) (entries : List (κ × ν)) : List (κ × ν) :=
  match entries with
  | [] => [(key, value)]
  | e :: rest => if e.1 ≤ key then e :: insertEntries key value rest else (key, value) :: e :: rest

theorem mem_insertEntries {key : κ} {value : ν} {entries : List (κ × ν)} {e : κ × ν} :
    e ∈ insertEntries key value entries ↔ e = (key, value) ∨ e ∈ entries := by
  induction entries with
  | nil => simp [insertEntries]
  | cons first rest ih =>
      by_cases hLe : first.1 ≤ key
      · simp only [insertEntries, if_pos hLe, List.mem_cons, ih]
        tauto
      · simp [insertEntries, if_neg hLe]

theorem sorted_insertEntries (key : κ) (value : ν) {entries : List (κ × ν)}
    (hSorted : entries.Pairwise fun a b => a.1 ≤ b.1) :
    (insertEntries key value entries).Pairwise fun a b => a.1 ≤ b.1 := by
  induction entries with
  | nil => simp [insertEntries]
  | cons first rest ih =>
      obtain ⟨hFirst, hRest⟩ := List.pairwise_cons.mp hSorted
      by_cases hLe : first.1 ≤ key
      · rw [insertEntries, if_pos hLe]
        refine List.pairwise_cons.mpr ⟨fun e he => ?_, ih hRest⟩
        rcases mem_insertEntries.mp he with rfl | he
        · exact hLe
        · exact hFirst e he
      · rw [insertEntries, if_neg hLe]
        have hLt : key ≤ first.1 := le_of_lt (not_le.mp hLe)
        refine List.pairwise_cons.mpr ⟨fun e he => ?_, hSorted⟩
        rcases List.mem_cons.mp he with rfl | he
        · exact hLt
        · exact le_trans hLt (hFirst e he)

theorem insertEntries_perm (key : κ) (value : ν) (entries : List (κ × ν)) :
    (insertEntries key value entries).Perm ((key, value) :: entries) := by
  induction entries with
  | nil => exact List.Perm.refl _
  | cons first rest ih =>
      by_cases hLe : first.1 ≤ key
      · rw [insertEntries, if_pos hLe]
        exact (ih.cons first).trans (List.Perm.swap _ _ _)
      · rw [insertEntries, if_neg hLe]

/-- `insert`. -/
def insert (m : Multimap κ ν) (key : κ) (value : ν) : Multimap κ ν :=
  ⟨insertEntries key value m.entries, sorted_insertEntries key value m.sorted⟩

/-- `erase(key)`: drop every entry under the key. -/
def erase (m : Multimap κ ν) (key : κ) : Multimap κ ν :=
  ⟨m.entries.filter (fun e => e.1 ≠ key), m.sorted.filter _⟩

/-- `find(key)`: the first value under the key. -/
def find? (m : Multimap κ ν) (key : κ) : Option ν :=
  (m.entries.find? fun e => e.1 = key).map Prod.snd

/-- `equal_range(key)`: the values under the key. -/
def values (m : Multimap κ ν) (key : κ) : List ν :=
  (m.entries.filter fun e => e.1 = key).map Prod.snd

theorem values_insertEntries (key : κ) (value : ν) {entries : List (κ × ν)}
    (hSorted : entries.Pairwise fun a b => a.1 ≤ b.1) :
    ((insertEntries key value entries).filter fun e => e.1 = key).map Prod.snd =
      (entries.filter fun e => e.1 = key).map Prod.snd ++ [value] := by
  induction entries with
  | nil => simp [insertEntries]
  | cons first rest ih =>
      obtain ⟨hFirst, hRest⟩ := List.pairwise_cons.mp hSorted
      by_cases hLe : first.1 ≤ key
      · rw [insertEntries, if_pos hLe, List.filter_cons, List.filter_cons]
        split
        · simp only [List.map_cons, List.cons_append, ih hRest]
        · exact ih hRest
      · -- The entries from here on are all above the key.
        have hNone : (first :: rest).filter (fun e => e.1 = key) = [] := by
          apply List.filter_eq_nil_iff.mpr
          intro e he
          have hGe : first.1 ≤ e.1 := by
            cases List.mem_cons.mp he with
            | inl hEq => exact le_of_eq (congrArg Prod.fst hEq.symm)
            | inr hMem => exact hFirst e hMem
          simpa using fun hEq : e.1 = key => hLe (hEq ▸ hGe)
        rw [insertEntries, if_neg hLe, List.filter_cons, hNone]
        simp

@[simp] theorem values_insert_self (m : Multimap κ ν) (key : κ) (value : ν) :
    (m.insert key value).values key = m.values key ++ [value] :=
  values_insertEntries key value m.sorted

@[simp] theorem values_insert_of_ne (m : Multimap κ ν) {key other : κ} (value : ν)
    (h : key ≠ other) : (m.insert key value).values other = m.values other := by
  have hInsert : ∀ entries : List (κ × ν),
      (insertEntries key value entries).filter (fun e => e.1 = other) =
        entries.filter fun e => e.1 = other := by
    intro entries
    induction entries with
    | nil => simp [insertEntries, h]
    | cons first rest ih =>
        rw [insertEntries]
        split
        · rw [List.filter_cons, List.filter_cons, ih]
        · simp [h]
  exact congrArg (List.map Prod.snd) (hInsert m.entries)

@[simp] theorem values_erase_self (m : Multimap κ ν) (key : κ) : (m.erase key).values key = [] := by
  simp [values, erase, List.filter_filter]

@[simp] theorem values_erase_of_ne (m : Multimap κ ν) {key other : κ} (h : key ≠ other) :
    (m.erase key).values other = m.values other := by
  simp only [values, erase, List.filter_filter]
  congr 2
  funext e
  simpa using fun hEq : e.1 = other => hEq ▸ h.symm

/-- Drop the entries that meet the predicate. -/
def drop (m : Multimap κ ν) (p : κ × ν → Bool) : Multimap κ ν :=
  ⟨m.entries.filter fun e => !p e, m.sorted.filter _⟩

theorem values_drop (m : Multimap κ ν) (p : κ × ν → Bool) (key : κ) :
    (m.drop p).values key = (m.values key).filter fun value => !p (key, value) := by
  simp only [values, drop, List.filter_map, List.filter_filter]
  congr 2
  funext e
  by_cases h : e.1 = key
  · simp [← h]
  · simp [h]

@[simp] theorem mem_drop {m : Multimap κ ν} {p : κ × ν → Bool} {e : κ × ν} :
    e ∈ (m.drop p).entries ↔ e ∈ m.entries ∧ p e = false := by
  simp [drop]

@[simp] theorem mem_insert {m : Multimap κ ν} {key : κ} {value : ν} {e : κ × ν} :
    e ∈ (m.insert key value).entries ↔ e = (key, value) ∨ e ∈ m.entries :=
  mem_insertEntries

@[simp] theorem mem_erase {m : Multimap κ ν} {key : κ} {e : κ × ν} :
    e ∈ (m.erase key).entries ↔ e ∈ m.entries ∧ e.1 ≠ key := by
  simp [erase]

/-- Sorted entries with the same values under every key are the same. -/
theorem entries_ext {l l' : List (κ × ν)} (hl : l.Pairwise fun a b => a.1 ≤ b.1)
    (hl' : l'.Pairwise fun a b => a.1 ≤ b.1)
    (h : ∀ key, (l.filter fun e => e.1 = key).map Prod.snd = (l'.filter fun e => e.1 = key).map Prod.snd) :
    l = l' := by
  induction l generalizing l' with
  | nil =>
      cases l' with
      | nil => rfl
      | cons e' rest' => simpa using h e'.1
  | cons e rest ih =>
      cases l' with
      | nil => simpa using h e.1
      | cons e' rest' =>
          obtain ⟨hFirst, hRest⟩ := List.pairwise_cons.mp hl
          obtain ⟨hFirst', hRest'⟩ := List.pairwise_cons.mp hl'
          have hMem : ∀ {a b : List (κ × ν)} {x : κ × ν}, x ∈ a →
              (a.filter fun e => e.1 = x.1).map Prod.snd = (b.filter fun e => e.1 = x.1).map Prod.snd →
              ∃ y ∈ b, y.1 = x.1 := by
            intro a b x hx hSame
            have hValue : x.2 ∈ (b.filter fun e => e.1 = x.1).map Prod.snd := by
              rw [← hSame]
              exact List.mem_map_of_mem (List.mem_filter.mpr ⟨hx, decide_eq_true rfl⟩)
            obtain ⟨y, hy, -⟩ := List.mem_map.mp hValue
            obtain ⟨hIn, hKey⟩ := List.mem_filter.mp hy
            exact ⟨y, hIn, of_decide_eq_true hKey⟩
          have hLe : e.1 ≤ e'.1 := by
            obtain ⟨y, hy, hKey⟩ := hMem List.mem_cons_self (h e'.1).symm
            rcases List.mem_cons.mp hy with hHead | hTail
            · rw [← hKey, hHead]
            · exact hKey ▸ hFirst y hTail
          have hGe : e'.1 ≤ e.1 := by
            obtain ⟨y, hy, hKey⟩ := hMem List.mem_cons_self (h e.1)
            rcases List.mem_cons.mp hy with hHead | hTail
            · rw [← hKey, hHead]
            · exact hKey ▸ hFirst' y hTail
          have hKey : e.1 = e'.1 := le_antisymm hLe hGe
          have hValue : e.2 = e'.2 := by
            have hHere := h e.1
            rw [List.filter_cons_of_pos (by simp), List.filter_cons_of_pos (by simp [hKey])] at hHere
            exact (List.cons.inj hHere).1
          have hHead : e = e' := Prod.ext hKey hValue
          subst hHead
          rw [ih hRest hRest' fun key => ?_]
          have hBoth := h key
          rw [List.filter_cons, List.filter_cons] at hBoth
          split at hBoth
          · exact (List.cons.inj hBoth).2
          · exact hBoth

/-- A multimap is known by the values under its keys. -/
theorem ext_values {m m' : Multimap κ ν} (h : ∀ key, m.values key = m'.values key) : m = m' := by
  have hEntries : m.entries = m'.entries := entries_ext m.sorted m'.sorted h
  cases m
  cases m'
  subst hEntries
  rfl

end Multimap
