import Mathlib.Data.List.Induction
import Mathlib.Data.List.Nodup

/-!
# First occurrences

`eraseDups` keeps the first occurrence of every entry of a list. It is described here by
what it does with one more entry at the end, which is how a loop builds it.
-/

namespace List

variable {α : Type} [DecidableEq α]

/-- An entry at the end is kept when it is new. -/
theorem eraseDups_concat (entries : List α) (entry : α) :
    (entries ++ [entry]).eraseDups =
      if entry ∈ entries then entries.eraseDups else entries.eraseDups ++ [entry] := by
  rw [eraseDups_append, removeAll]
  by_cases hmem : entry ∈ entries
  · simp [hmem]
  · simp [hmem, eraseDups_cons]

/-- Kept entries come in the order in which they first occurred. -/
theorem pairwise_eraseDups (entries : List α) :
    entries.eraseDups.Pairwise fun first second =>
      entries.idxOf first < entries.idxOf second := by
  induction entries using reverseRecOn with
  | nil => exact Pairwise.nil
  | append_singleton entries entry ih =>
      have hfront : (entries.eraseDups).Pairwise fun first second =>
          (entries ++ [entry]).idxOf first < (entries ++ [entry]).idxOf second := by
        apply ih.imp_of_mem
        intro first second hfirst hsecond hlt
        rw [idxOf_append_of_mem (mem_eraseDups.mp hfirst),
          idxOf_append_of_mem (mem_eraseDups.mp hsecond)]
        exact hlt
      rw [eraseDups_concat]
      split
      next => exact hfront
      next hnew =>
        apply pairwise_append.mpr
        refine ⟨hfront, pairwise_singleton _ _, ?_⟩
        intro first hfirst second hsecond
        rw [mem_singleton.mp hsecond, idxOf_append_of_mem (mem_eraseDups.mp hfirst),
          idxOf_append_of_notMem hnew]
        exact Nat.lt_add_right _ (idxOf_lt_length_of_mem (mem_eraseDups.mp hfirst))

theorem nodup_eraseDups (entries : List α) : entries.eraseDups.Nodup := by
  apply (pairwise_eraseDups entries).imp
  intro first second hlt heq
  rw [heq] at hlt
  exact Nat.lt_irrefl _ hlt

/-- Where nothing repeats, everything is kept. -/
theorem eraseDups_of_nodup {entries : List α} (hnodup : entries.Nodup) :
    entries.eraseDups = entries := by
  induction entries using reverseRecOn with
  | nil => rfl
  | append_singleton entries entry ih =>
      obtain ⟨hfront, -, hdisjoint⟩ := nodup_append.mp hnodup
      have hnew : entry ∉ entries := by
        intro hmem
        exact hdisjoint entry hmem entry (mem_singleton_self entry) rfl
      rw [eraseDups_concat, if_neg hnew, ih hfront]

end List
