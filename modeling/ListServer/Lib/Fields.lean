import Mathlib.Algebra.BigOperators.Group.List.Basic
import Mathlib.Algebra.Order.Ring.Int

namespace ListServer.Lib.Fields

variable {α : Type}

def records [DecidableEq α] (mark : α) (text : List α) : List (List α) :=
  (text.splitOn mark).dropLast

abbrev join (mark : α) (fields : List (List α)) : List α := [mark].intercalate fields

variable {mark : α} {field text : List α} {front back : List (List α)}

theorem mem_join {sep x : α} {fields : List (List α)} (h : x ∈ join sep fields) :
    x = sep ∨ ∃ w ∈ fields, x ∈ w := by
  induction fields with
  | nil => cases h
  | cons w fields ih =>
    cases fields with
    | nil => exact .inr ⟨w, List.mem_cons_self, by simpa [join] using h⟩
    | cons u fields =>
      rw [join, List.intercalate_cons_cons, List.append_assoc, List.mem_append,
        List.singleton_append, List.mem_cons] at h
      obtain h | rfl | h := h
      · exact .inr ⟨w, List.mem_cons_self, h⟩
      · exact .inl rfl
      · exact (ih h).imp_right fun ⟨v, hv, hx⟩ => ⟨v, List.mem_cons_of_mem w hv, hx⟩

variable [DecidableEq α]

theorem records_append (h : mark ∉ field) (text : List α) :
    records mark (field ++ mark :: text) = field :: records mark text := by
  rw [records, records, List.splitOn_append_cons_self_of_not_mem h,
    List.dropLast_cons_of_ne_nil (List.splitOn_ne_nil mark text)]

theorem length_splitOn (mark : α) (text : List α) :
    (text.splitOn mark).length = text.count mark + 1 := by
  induction text with
  | nil => rfl
  | cons x text ih =>
    rw [List.splitOn_cons_eq_if_modifyHead]
    by_cases hx : x = mark
    · rw [if_pos (beq_iff_eq.mpr hx), List.length_cons, ih, List.count_cons, if_pos (by simp [hx])]
    · rw [if_neg (by simpa using hx), List.length_modifyHead, ih, List.count_cons,
        if_neg (by simpa using hx), Nat.add_zero]

theorem length_records (mark : α) (text : List α) :
    (records mark text).length = text.count mark := by
  rw [records, List.length_dropLast, length_splitOn, Nat.add_sub_cancel]

/-- One field of a record may have the mark in it: the others are found from
the two ends. -/
theorem splitOn_join (hfront : ∀ w ∈ front, mark ∉ w) (hback : ∀ w ∈ back, mark ∉ w)
    (field : List α) : (join mark (front ++ field :: back)).splitOn mark =
      front ++ (field.splitOn mark ++ back) := by
  induction front with
  | nil =>
    cases back with
    | nil => simp [join]
    | cons b back =>
      rw [List.nil_append, List.nil_append, join, List.intercalate_cons_cons, List.append_assoc,
        List.singleton_append, List.splitOn_append_cons_self,
        List.splitOn_intercalate mark hback (List.cons_ne_nil b back)]
  | cons w front ih =>
    have hw := hfront w List.mem_cons_self
    have hrest := ih fun u hu => hfront u (List.mem_cons_of_mem w hu)
    rw [List.cons_append, join, List.intercalate_cons_of_ne_nil (by simp), List.append_assoc,
      List.singleton_append, List.splitOn_append_cons_self_of_not_mem hw, hrest]
    rfl

theorem count_join {sep : α} (hsep : sep ≠ mark) (fields : List (List α)) :
    (join sep fields).count mark = (fields.map (List.count mark)).sum := by
  induction fields with
  | nil => rfl
  | cons w fields ih =>
    cases fields with
    | nil => simp [join]
    | cons u fields =>
      rw [join, List.intercalate_cons_cons, List.count_append, List.count_append,
        List.count_singleton, if_neg (by simpa using hsep), ih]
      simp

end ListServer.Lib.Fields
