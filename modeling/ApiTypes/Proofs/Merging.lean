import ApiTypes.Proofs.Scope
import Mathlib.Data.List.Nodup

/-!
# What merged declarations say

* `Model.leaves` : the models that are put together in one;
* `Declaration.nodup_merge` : merged declarations have names of their own;
* `Declaration.leaves_merge` : each says what the declarations of its name say, in order.
-/

namespace ApiTypes

/-- The models that are put together in a model. -/
def Model.leaves : Model → List Model
  | both first second => first.leaves ++ second.leaves
  | interface c n t => [interface c n t]
  | synonym c n t => [synonym c n t]
  | empty c n => [empty c n]
  | enum c n values => [enum c n values]
  | mergedEnum n parts => [mergedEnum n parts]

namespace Declaration

theorem nodup_insert {ms : List Declaration} (h : (ms.map (·.name)).Nodup) (e : Declaration) :
    ((insert ms e).map (·.name)).Nodup := by
  rw [map_name_insert]
  split
  · exact h
  · rename_i hmem
    refine List.nodup_append'.2 ⟨h, List.nodup_singleton _, ?_⟩
    simpa using hmem

/-- Where names differ, the declaration of the new one's name is the one that changes. -/
theorem mem_insert_of_nodup {ms : List Declaration} (h : (ms.map (·.name)).Nodup)
    {e m : Declaration} (hm : m ∈ insert ms e) :
    (m ∈ ms ∧ m.name ≠ e.name) ∨ (∃ d ∈ ms, d.name = e.name ∧ m = d.join e) ∨
      (m = e ∧ ∀ d ∈ ms, d.name ≠ e.name) := by
  induction ms with
  | nil =>
    rw [insert, List.mem_singleton] at hm
    exact .inr (.inr ⟨hm, by simp⟩)
  | cons d rest ih =>
    rw [List.map_cons, List.nodup_cons] at h
    rw [insert] at hm
    split at hm
    · rename_i hname
      rcases List.mem_cons.1 hm with rfl | hm
      · exact .inr (.inl ⟨d, List.mem_cons_self .., hname, rfl⟩)
      · refine .inl ⟨List.mem_cons_of_mem _ hm, fun heq => h.1 ?_⟩
        rw [hname, ← heq]
        exact List.mem_map_of_mem hm
    · rename_i hname
      rcases List.mem_cons.1 hm with rfl | hm
      · exact .inl ⟨List.mem_cons_self .., hname⟩
      · rcases ih h.2 hm with ⟨hm, hne⟩ | ⟨c, hc, hname', hm⟩ | ⟨hm, hne⟩
        · exact .inl ⟨List.mem_cons_of_mem _ hm, hne⟩
        · exact .inr (.inl ⟨c, List.mem_cons_of_mem _ hc, hname', hm⟩)
        · exact .inr (.inr ⟨hm, List.forall_mem_cons.2 ⟨hname, hne⟩⟩)

theorem nodup_merge (ds : List Declaration) : ((merge ds).map (·.name)).Nodup := by
  induction ds using List.reverseRecOn with
  | nil => exact .nil
  | append_singleton ds e ih =>
    rw [merge, List.foldl_append]
    exact nodup_insert ih e

/-- What is said under one name once declarations are put together is what they say under it, in
order. -/
theorem leaves_merge {ds : List Declaration} {m : Declaration} (hm : m ∈ merge ds) :
    m.model.leaves = (ds.filter (·.name = m.name)).flatMap (·.model.leaves) := by
  induction ds using List.reverseRecOn generalizing m with
  | nil => cases hm
  | append_singleton ds e ih =>
    rw [merge, List.foldl_append] at hm
    rw [List.filter_append, List.flatMap_append]
    rcases mem_insert_of_nodup (nodup_merge ds) hm with ⟨hm, hne⟩ | ⟨d, hd, hname, rfl⟩ | ⟨rfl, hne⟩
    · have hother : [e].filter (·.name = m.name) = [] := by simp [Ne.symm hne]
      rw [hother, ih hm, List.flatMap_nil, List.append_nil]
    · have hsame : [e].filter (·.name = (d.join e).name) = [e] := by simp [join, hname]
      rw [hsame, List.flatMap_singleton, join, Model.leaves, ih hd]
    · have hnone : ds.filter (·.name = m.name) = [] := by
        rw [List.filter_eq_nil_iff]
        intro d hd heq
        obtain ⟨c, hc, hcd⟩ := ((gathers_merge ds).names d.name).2 ⟨d, hd, rfl⟩
        exact hne c hc (hcd.trans (of_decide_eq_true heq))
      have hsame : [m].filter (·.name = m.name) = [m] := by simp
      rw [hnone, hsame, List.flatMap_nil, List.flatMap_singleton, List.nil_append]

end Declaration
end ApiTypes
