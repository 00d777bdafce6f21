import Mathlib.Data.List.Perm.Basic

/-!
# Ordered sets

A `std::set` is the strictly increasing list of its members. Such a list is known from
its members alone.
-/

namespace SortedSet

variable {α : Type} [LT α] [DecidableLT α] [DecidableEq α]

/-- `std::set::insert`. -/
def insert (a : α) : List α → List α
  | [] => [a]
  | b :: rest => if a < b then a :: b :: rest else if a = b then b :: rest else b :: insert a rest

@[simp] theorem mem_insert {a b : α} {set : List α} : b ∈ insert a set ↔ b = a ∨ b ∈ set := by
  induction set with
  | nil => simp [insert]
  | cons c rest ih =>
      rw [insert]
      split
      · exact List.mem_cons
      split
      · rename_i heq
        rw [heq, List.mem_cons, or_self_left]
      · rw [List.mem_cons, List.mem_cons, ih, or_left_comm]

variable [LE α] [Std.IsLinearOrder α] [Std.LawfulOrderLT α]

theorem pairwise_insert {a : α} {set : List α} (hset : set.Pairwise (· < ·)) :
    (insert a set).Pairwise (· < ·) := by
  induction set with
  | nil => exact List.pairwise_singleton _ a
  | cons b rest ih =>
      obtain ⟨hb, hrest⟩ := List.pairwise_cons.mp hset
      rw [insert]
      split
      · rename_i hlt
        refine List.pairwise_cons.mpr ⟨?_, hset⟩
        exact List.forall_mem_cons.mpr ⟨hlt, fun c hc => Std.lt_trans hlt (hb c hc)⟩
      split
      · exact hset
      · rename_i hnot hne
        have hlt : b < a := Std.lt_of_le_of_ne (Std.not_lt.mp hnot) (Ne.symm hne)
        refine List.pairwise_cons.mpr ⟨?_, ih hrest⟩
        intro c hc
        rcases mem_insert.mp hc with rfl | hc
        · exact hlt
        · exact hb c hc

omit [DecidableLT α] [DecidableEq α] in
/-- Two ordered sets with the same members are the same list. -/
theorem eq_of_mem_iff {set other : List α} (hset : set.Pairwise (· < ·))
    (hother : other.Pairwise (· < ·)) (hmem : ∀ a, a ∈ set ↔ a ∈ other) : set = other := by
  have hnodup : ∀ {list : List α}, list.Pairwise (· < ·) → list.Nodup := by
    intro list hlist
    apply hlist.imp
    intro a b hlt heq
    subst heq
    exact Std.lt_irrefl hlt
  have hperm : set.Perm other :=
    (List.perm_ext_iff_of_nodup (hnodup hset) (hnodup hother)).mpr hmem
  exact hperm.eq_of_pairwise (fun _ _ _ _ hlt hgt => absurd (Std.lt_trans hlt hgt) Std.lt_irrefl)
    hset hother

end SortedSet
