import ListServer.Topology

namespace ListServer.ChainOrder

open Lib.CTypes Lib.Neighbour ChainServer ListServer.Topology

/-- The children that read as `node-%d`, in the order of their numbers. -/
structure Ordered (children line : List CString) : Prop where
  perm : line.Perm (parsed children)
  sorted : line.Pairwise fun x y => number x < number y

variable {children line front back : List CString} {x : CString}

theorem exists_ordered (h : ((parsed children).map number).Nodup) :
    ∃ line, Ordered children line := by
  obtain ⟨line, hperm, hsorted⟩ :=
    exists_sorted (List.inj_on_of_nodup_map h) (h.of_map _)
  exact ⟨line, hperm, hsorted⟩

theorem Ordered.mem (h : Ordered children line) {z : CString} : z ∈ parsed children ↔ z ∈ line :=
  h.perm.mem_iff.symm

theorem succ_ordered (hn : Numbered children) (h : Ordered children (front ++ x :: back)) :
    succ 0 children x = back.head? := by
  have hsucc : Successor number (parsed children) (succ 0 children) := successor_succ hn
  have hx : x ∈ parsed children := h.mem.mpr (by simp)
  cases back with
  | nil =>
    refine (hsucc.eq_none hx).mpr fun z hz => ?_
    obtain hz | hz := List.mem_append.mp (h.mem.mp hz)
    · exact ((List.pairwise_append.mp h.sorted).2.2 z hz x List.mem_cons_self).le
    · rw [List.mem_singleton.mp hz]
  | cons y back =>
    exact (hsucc.eq_some hn.injOn hx).mpr (next_of_sorted (fun _ => h.mem) h.sorted)

theorem pred_ordered (hn : Numbered children) (h : Ordered children (front ++ x :: back)) :
    pred 0 children x = front.getLast? := by
  have hpred : Predecessor number (parsed children) (pred 0 children) := predecessor_pred hn
  have hx : x ∈ parsed children := h.mem.mpr (by simp)
  obtain rfl | ⟨front, y, rfl⟩ := List.eq_nil_or_concat' front
  · refine (hpred.eq_none hx).mpr fun z hz => ?_
    obtain rfl | hz := List.mem_cons.mp (h.mem.mp hz)
    · exact le_refl _
    · exact ((List.pairwise_cons.mp h.sorted).1 z hz).le
  · have hy : y ∈ parsed children := h.mem.mpr (by simp)
    rw [List.append_assoc, List.singleton_append] at h
    rw [List.getLast?_concat]
    exact (hpred.eq_some hn.injOn hx).mpr
      ((next_iff_previous hy hx).mp (next_of_sorted (fun _ => h.mem) h.sorted))

theorem clientHead_ordered (hn : Numbered children) (h : Ordered children (x :: back)) :
    clientHead children = some x := by
  obtain ⟨head, hmem, hhead, hmin⟩ := clientHead_spec hn
  obtain rfl | hback := List.mem_cons.mp (h.mem.mp hmem)
  · exact hhead
  · have hlt := (List.pairwise_cons.mp h.sorted).1 head hback
    exact absurd hlt (not_lt.mpr (hmin x (h.mem.mpr List.mem_cons_self)))

theorem clientTail_ordered (hn : Numbered children) (h : Ordered children (front ++ [x])) :
    clientTail children = some x := by
  obtain ⟨tail, hmem, htail, hmax⟩ := clientTail_spec hn
  obtain hfront | hx := List.mem_append.mp (h.mem.mp hmem)
  · have hlt := (List.pairwise_append.mp h.sorted).2.2 tail hfront x List.mem_cons_self
    exact absurd hlt (not_lt.mpr (hmax x (h.mem.mpr (by simp))))
  · rw [← List.mem_singleton.mp hx]
    exact htail

end ListServer.ChainOrder
