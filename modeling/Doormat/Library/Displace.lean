import Mathlib.Data.List.Induction
import Doormat.Library.Combine

/-! Values that are added one after the other, where a new one may take the place of earlier
ones. -/

namespace Displace

variable {α : Type*} (displaces : α → α → Prop) [DecidableRel displaces]

/-- A new value comes after the values that it does not displace. -/
def place (held : List α) (new : α) : List α :=
  held.filter (fun old => ¬ displaces new old) ++ [new]

/-- What is left of the values that were added. -/
def settle (added : List α) : List α := added.foldl (place displaces) []

variable {displaces}

theorem settle_concat (added : List α) (new : α) :
    settle displaces (added ++ [new]) =
      (settle displaces added).filter (fun old => ¬ displaces new old) ++ [new] := by
  rw [settle, List.foldl_concat]
  rfl

/-- What was there at first stays where nothing displaces it. -/
theorem foldl_place (held added : List α) :
    added.foldl (place displaces) held =
      held.filter (fun old => ∀ new ∈ added, ¬ displaces new old) ++ settle displaces added := by
  induction added using List.reverseRecOn with
  | nil => simp [settle]
  | append_singleton added new ih =>
      have hLeft : ∀ old, (decide (¬ displaces new old) &&
          decide (∀ a ∈ added, ¬ displaces a old)) =
          decide (∀ a ∈ added ++ [new], ¬ displaces a old) := by
        intro old
        rw [Bool.eq_iff_iff, Bool.and_eq_true, decide_eq_true_iff, decide_eq_true_iff,
          decide_eq_true_iff, List.forall_mem_append, List.forall_mem_singleton]
        exact And.comm
      rw [List.foldl_concat, ih, place, settle_concat, List.filter_append, List.filter_filter,
        List.append_assoc, funext hLeft]

theorem settle_sublist (added : List α) : (settle displaces added).Sublist added := by
  induction added using List.reverseRecOn with
  | nil => exact List.Sublist.slnil
  | append_singleton added new ih =>
      rw [settle_concat]
      exact ((List.filter_sublist).trans ih).append_right [new]

/-- Nothing is lost exactly if no value displaces an earlier one. -/
theorem settle_eq_self_iff (added : List α) :
    settle displaces added = added ↔ added.Pairwise fun old new => ¬ displaces new old := by
  induction added using List.reverseRecOn with
  | nil => exact iff_of_true rfl List.Pairwise.nil
  | append_singleton added new ih =>
      rw [settle_concat, List.append_left_inj, List.pairwise_append, ← ih]
      constructor
      · intro hSame
        have hSettled : settle displaces added = added := by
          apply (settle_sublist added).eq_of_length_le
          calc
            added.length = ((settle displaces added).filter _).length :=
              (congrArg List.length hSame).symm
            _ ≤ (settle displaces added).length := List.length_filter_le _ _
        refine ⟨hSettled, List.pairwise_singleton _ _, ?_⟩
        intro old hOld last hLast
        rw [hSettled, List.filter_eq_self] at hSame
        rw [List.mem_singleton.mp hLast]
        exact of_decide_eq_true (hSame old hOld)
      · intro ⟨hSettled, _, hNone⟩
        rw [hSettled, List.filter_eq_self]
        intro old hOld
        exact decide_eq_true (hNone old hOld new (List.mem_singleton_self new))

/-- Entries from which some were left out, with the same values under every key: none was. -/
theorem eq_of_sublist_of_valuesIn {κ ν : Type*} [LinearOrder κ] {kept all : List (κ × ν)}
    (hSub : kept.Sublist all) (h : ∀ key, Multimap.valuesIn kept key = Multimap.valuesIn all key) :
    kept = all := by
  induction hSub with
  | slnil => rfl
  | @cons kept all e hSub ih =>
      have hHere := h e.1
      have hFirst : Multimap.valuesIn (e :: all) e.1 = e.2 :: Multimap.valuesIn all e.1 :=
        Multimap.valuesIn_cons_self e.1 e.2 all
      rw [hFirst] at hHere
      have hShort : (Multimap.valuesIn kept e.1).length ≤ (Multimap.valuesIn all e.1).length :=
        ((hSub.filter _).map _).length_le
      rw [hHere, List.length_cons] at hShort
      omega
  | @cons_cons kept all e hSub ih =>
      rw [ih]
      intro key
      have hBoth := h key
      rw [← List.singleton_append, ← List.singleton_append (l := all), Multimap.valuesIn_append,
        Multimap.valuesIn_append] at hBoth
      exact List.append_cancel_left hBoth

end Displace
