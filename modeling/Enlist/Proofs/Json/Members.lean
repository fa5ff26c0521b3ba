import Enlist.Json.Members
import Mathlib.Data.List.Nodup
import Mathlib.Data.List.Perm.Basic
import Mathlib.Data.String.Basic

/-!
# Members in any order

Things with different names may be gathered in any order.

* `ofList_eq_of_perm`   what is gathered from two lists is the same when one permutes the other
-/

namespace Enlist.Json.Members

variable {α : Type} {n m : String}

theorem insert_self (a b : α) (ms : List (String × α)) : insert n a ((n, b) :: ms) = (n, a) :: ms := by
  simp [insert]

/-- A member goes in front of those with greater names. -/
theorem insert_of_lt (h : n < m) (a b : α) (ms : List (String × α)) :
    insert n a ((m, b) :: ms) = (n, a) :: (m, b) :: ms := by
  simp [insert, h, h.ne]

/-- A member goes behind those with smaller names. -/
theorem insert_of_gt (h : m < n) (a b : α) (ms : List (String × α)) :
    insert n a ((m, b) :: ms) = (m, b) :: insert n a ms := by
  simp [insert, h.ne', String.lt_asymm h]

/-- Members with different names may be inserted in either order. -/
theorem insert_comm_of_lt (h : n < m) (a b : α) (ms : List (String × α)) :
    insert n a (insert m b ms) = insert m b (insert n a ms) := by
  induction ms with
  | nil => rw [insert, insert, insert_of_lt h, insert_of_gt h, insert]
  | cons c ms ih =>
    obtain ⟨k, c⟩ := c
    -- Where the head stands among the two names decides what each insertion does
    obtain hmk | rfl | hkm := lt_trichotomy m k
    · have hnk := String.lt_trans h hmk
      rw [insert_of_lt hmk, insert_of_lt h, insert_of_lt hnk, insert_of_gt h, insert_of_lt hmk]
    · rw [insert_self, insert_of_lt h, insert_of_lt h, insert_of_gt h, insert_self]
    · obtain hnk | rfl | hkn := lt_trichotomy n k
      · rw [insert_of_gt hkm, insert_of_lt hnk, insert_of_lt hnk, insert_of_gt h, insert_of_gt hkm]
      · rw [insert_of_gt hkm, insert_self, insert_self, insert_of_gt hkm]
      · rw [insert_of_gt hkm, insert_of_gt hkn, insert_of_gt hkn, insert_of_gt hkm, ih]

/-- Things with different names may be put in in either order. -/
theorem insert_comm (h : n ≠ m) (a b : α) (ms : List (String × α)) :
    insert n a (insert m b ms) = insert m b (insert n a ms) := by
  obtain hlt | heq | hgt := lt_trichotomy n m
  · exact insert_comm_of_lt hlt a b ms
  · exact absurd heq h
  · exact (insert_comm_of_lt hgt b a ms).symm

/-- The order in which members with different names are inserted does not matter. -/
theorem ofList_eq_of_perm {ms ns : List (String × α)} (h : ms.Perm ns)
    (hnames : (ms.map Prod.fst).Nodup) : ofList ms = ofList ns := by
  refine h.foldl_eq' (fun x hx y hy gathered => ?_) []
  by_cases hname : x.1 = y.1
  · rw [List.inj_on_of_nodup_map hnames hx hy hname]
  · exact insert_comm (Ne.symm hname) y.2 x.2 gathered

end Enlist.Json.Members
