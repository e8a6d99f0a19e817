import Mathlib.Data.List.AList

/-!
# Lookups in Association Lists

An `AList` without dependent values is a finite map whose order carries no meaning. What a
lookup finds after an insertion or a removal, as one equation, with the case whether the key is
concerned left to the caller.

## Main results

* `AList.lookup_insert_ite`, `AList.lookup_erase_ite`: lookups after an insertion or a removal.
* `AList.lookup_foldl_erase`: lookups after the keys of a list have been removed.
* `AList.length_insert`: an insertion adds an entry unless the key is there.
-/

namespace AList

variable {α β : Type*} [DecidableEq α]

theorem lookup_insert_ite (m : AList fun _ : α => β) (a : α) (v : β) (b : α) :
    (m.insert a v).lookup b = if b = a then some v else m.lookup b := by
  split_ifs with h
  · rw [h, lookup_insert]
  · rw [lookup_insert_ne h]

theorem lookup_erase_ite (m : AList fun _ : α => β) (a b : α) :
    (m.erase a).lookup b = if b = a then none else m.lookup b := by
  split_ifs with h
  · rw [h, lookup_erase]
  · rw [lookup_erase_ne h]

theorem lookup_foldl_erase (l : List α) (m : AList fun _ : α => β) (a : α) :
    (l.foldl (fun m b => m.erase b) m).lookup a = if a ∈ l then none else m.lookup a := by
  induction l generalizing m with
  | nil => simp
  | cons b l ih =>
      rw [List.foldl_cons, ih]
      by_cases hl : a ∈ l
      · simp [hl]
      · by_cases hb : a = b <;> simp [lookup_erase_ite, hl, hb]

omit [DecidableEq α] in
theorem length_entries (m : AList fun _ : α => β) : m.entries.length = m.keys.length :=
  (List.length_map Sigma.fst).symm

theorem length_insert (m : AList fun _ : α => β) (a : α) (v : β) :
    (m.insert a v).entries.length =
      if a ∈ m then m.entries.length else m.entries.length + 1 := by
  rw [length_entries, length_entries, keys_insert, List.length_cons]
  split_ifs with h
  · have hpos : 0 < m.keys.length := List.length_pos_of_mem h
    rw [List.length_erase_of_mem h]
    omega
  · rw [List.erase_of_not_mem h]

end AList
