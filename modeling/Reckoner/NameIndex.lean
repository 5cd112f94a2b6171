import Reckoner.Text

/-!
Names in order, by code unit. The place of a name is found by halving, and the names that begin
alike stand together behind it.
-/

namespace Reckoner

/-- The place from which on `low` does not hold any more, between `lo` and `hi`. -/
def bisect (low : Nat → Bool) (lo hi : Nat) : Nat :=
  if lo < hi then
    if low ((lo + hi) / 2) then bisect low ((lo + hi) / 2 + 1) hi
    else bisect low lo ((lo + hi) / 2)
  else lo
termination_by hi - lo
decreasing_by all_goals omega

/-- If `low` holds up to some place and not from there on, that place is found. -/
theorem lt_bisect_iff {low : Nat → Bool} (down : ∀ i j, i ≤ j → low j = true → low i = true)
    {lo hi : Nat} (before : ∀ i < lo, low i = true) (behind : ∀ i, hi ≤ i → low i = false)
    (i : Nat) : i < bisect low lo hi ↔ low i = true := by
  fun_induction bisect low lo hi with
  | case1 lo hi hlt hlow ih =>
    refine ih (fun j hj => ?_) behind
    exact down j ((lo + hi) / 2) (by omega) hlow
  | case2 lo hi hlt hlow ih =>
    refine ih before (fun j hj => ?_)
    exact Bool.eq_false_iff.mpr fun h => hlow (down _ j hj h)
  | case3 lo hi hge =>
    constructor
    · exact before i
    · intro h
      apply Nat.lt_of_not_le
      intro hle
      rw [behind i (by omega)] at h
      cases h

/-- Names in increasing order, each of them once. -/
structure NameIndex where
  names : Array Text
  sorted : names.toList.Pairwise (· < ·)

namespace NameIndex

def empty : NameIndex := ⟨#[], .nil⟩

/-- How many names are below the target. -/
def lowerBound (index : NameIndex) (target : Text) : Nat :=
  bisect (fun i => index.names[i]?.any (· < target)) 0 index.names.size

variable (index : NameIndex) (target : Text)

theorem lt_lowerBound_iff (i : Nat) :
    i < index.lowerBound target ↔ index.names.toList[i]?.any (· < target) = true := by
  rw [Array.getElem?_toList]
  refine lt_bisect_iff (fun i j hij hj => ?_) (fun i hi => absurd hi (Nat.not_lt_zero i))
    (fun i hi => ?_) i
  · obtain ⟨name, hname, hlow⟩ := (Option.any_eq_true _ _).mp hj
    obtain ⟨hsize, rfl⟩ := Array.getElem?_eq_some_iff.mp hname
    rw [Array.getElem?_eq_getElem (by omega), Option.any_some, decide_eq_true_eq]
    rw [decide_eq_true_eq] at hlow
    by_cases heq : i = j
    · subst heq
      exact hlow
    · have hbelow := List.pairwise_iff_getElem.mp index.sorted i j (by simp; omega) hsize (by omega)
      rw [Array.getElem_toList, Array.getElem_toList] at hbelow
      exact List.lt_trans hbelow hlow
  · rw [Array.getElem?_eq_none hi]
    rfl

theorem lt_of_mem_take {name : Text}
    (h : name ∈ index.names.toList.take (index.lowerBound target)) : name < target := by
  obtain ⟨i, hi, rfl⟩ := List.mem_take_iff_getElem.mp h
  have hlow := (index.lt_lowerBound_iff target i).mp (by omega)
  rw [List.getElem?_eq_getElem (by omega), Option.any_some] at hlow
  exact of_decide_eq_true hlow

theorem not_lt_of_mem_drop {name : Text}
    (h : name ∈ index.names.toList.drop (index.lowerBound target)) : ¬ name < target := by
  obtain ⟨i, hi, rfl⟩ := List.mem_drop_iff_getElem.mp h
  intro hbelow
  have hlow : index.names.toList[index.lowerBound target + i]?.any (· < target) = true := by
    rw [List.getElem?_eq_getElem (by omega), Option.any_some]
    exact decide_eq_true hbelow
  have hlt := (index.lt_lowerBound_iff target _).mpr hlow
  omega

/-- The names with one more at a place. -/
def spliced (names : Array Text) (place : Nat) (name : Text) : Array Text :=
  (names.take place).push name ++ names.drop place

theorem toList_spliced (names : Array Text) (place : Nat) (name : Text) :
    (spliced names place name).toList =
      names.toList.take place ++ name :: names.toList.drop place := by
  have hrest : (names.toList.drop place).take (names.size - place) = names.toList.drop place :=
    List.take_of_length_le (by simp)
  simp [spliced, hrest]

/-- The names and a new one, in order. -/
def insert (name : Text) (fresh : name ∉ index.names) : NameIndex where
  names := spliced index.names (index.lowerBound name) name
  sorted := by
    have hsplit := index.sorted
    rw [← List.take_append_drop (index.lowerBound name) index.names.toList,
      List.pairwise_append] at hsplit
    obtain ⟨hfront, hback, hacross⟩ := hsplit
    have habove (other : Text) (hother : other ∈ index.names.toList.drop (index.lowerBound name)) :
        name < other := by
      have hne : other ≠ name := by
        rintro rfl
        exact fresh (Array.mem_toList_iff.mp (List.mem_of_mem_drop hother))
      exact Std.lt_of_le_of_ne (index.not_lt_of_mem_drop name hother) hne.symm
    rw [toList_spliced, List.pairwise_append]
    refine ⟨hfront, List.pairwise_cons.mpr ⟨habove, hback⟩, fun low hlow other hother => ?_⟩
    rcases List.mem_cons.mp hother with rfl | hother
    · exact index.lt_of_mem_take other hlow
    · exact hacross low hlow other hother

theorem mem_insert {name other : Text} (fresh : name ∉ index.names) :
    other ∈ (index.insert name fresh).names ↔ other = name ∨ other ∈ index.names := by
  have hold : other ∈ index.names ↔ other ∈ index.names.toList.take (index.lowerBound name) ∨
      other ∈ index.names.toList.drop (index.lowerBound name) := by
    rw [← List.mem_append, List.take_append_drop, Array.mem_toList_iff]
  rw [hold, ← Array.mem_toList_iff, insert, toList_spliced, List.mem_append, List.mem_cons]
  exact or_left_comm

/-- The names that begin with `start`: from its place on, as long as they do. -/
def beginningWith (start : Text) : List Text :=
  (index.names.toList.drop (index.lowerBound start)).takeWhile start.isPrefixOf

end NameIndex
end Reckoner
