import MacroScript.Symbol.Table
import Mathlib.Data.Finset.Max
import Mathlib.Data.Finset.Range

/-!
# What a search by halving finds

Halving a window ends at a *turn* for the item: a place whose own entry does not exceed the item,
with an entry above the item right after it. Each of the two is known from a comparison, or the
place is at that end of the window (`turnsAt_halvingPlace`). Nothing about the order of the list is
used for this, so it says as much about a list that is out of order.

In a list in ascending order every item that occurs is found (`halvingContains_of_mem`). Where
entries that came before a smaller one do not come again, the converse holds too: **if every item is
found, the list is in ascending order** (`pairwise_of_halvingContains`).
-/
namespace MacroScript

/-- The place is a turn for the item within the window from `base` up to `stop`. At either end of
the window nothing has been compared, so that nothing is said of the entry there. -/
structure TurnsAt (items : List Nat) (item base stop place : Nat) : Prop where
  base_le : base ≤ place
  lt_stop : place < stop
  entry_le : place = base ∨ items.getD place 0 ≤ item
  lt_next : place + 1 = stop ∨ item < items.getD (place + 1) 0

/-- **Halving ends at a turn**, whatever the order of the items. The induction follows the search:
the half that it goes on with has one of its ends at the middle, and the comparison there is what
the turn needs. -/
theorem turnsAt_halvingPlace (items : List Nat) (item base : Nat) {size : Nat} (hsize : 0 < size) :
    TurnsAt items item base (base + size) (halvingPlace items item base size) := by
  fun_induction halvingPlace items item base size with
  | case1 base size hsmall =>
    obtain rfl : size = 1 := by omega
    exact ⟨Nat.le_refl _, Nat.lt_succ_self _, .inl rfl, .inl rfl⟩
  | case2 base size hlarge middle ih =>
    by_cases hleft : item < items.getD middle 0
    · simp only [hleft, if_true, dite_true] at ih ⊢
      have hturn := ih (by omega)
      have hle := hturn.base_le
      have hlt := hturn.lt_stop
      have hentry := hturn.entry_le
      have hnext := hturn.lt_next
      -- the window on the left may hold the middle, whose entry is too large to end there
      have hbefore : halvingPlace items item base (size - size / 2) ≠ middle := by
        intro heq
        rw [heq] at hentry
        omega
      refine ⟨hle, by omega, hentry, .inr ?_⟩
      rcases hnext with hend | hnext
      · have hmiddle : halvingPlace items item base (size - size / 2) + 1 = middle := by omega
        rw [hmiddle]
        exact hleft
      · exact hnext
    · simp only [hleft, if_false, dite_false] at ih ⊢
      have hturn := ih (by omega)
      have hstop : middle + (size - size / 2) = base + size := by omega
      rw [hstop] at hturn
      refine ⟨by have := hturn.base_le; omega, hturn.lt_stop, .inr ?_, hturn.lt_next⟩
      rcases hturn.entry_le with heq | hentry
      · rw [heq]
        omega
      · exact hentry

/-- A search over a whole list that has the item ends at a turn, as the list is not empty. -/
theorem turnsAt_of_mem {items : List Nat} {item : Nat} (hmem : item ∈ items) :
    TurnsAt items item 0 items.length (halvingPlace items item 0 items.length) := by
  have hturn := turnsAt_halvingPlace items item 0 (List.length_pos_of_mem hmem)
  rwa [Nat.zero_add] at hturn

/-- The item is found if it stands where the search ends; the search itself does not stop at it. -/
theorem halvingContains_iff {items : List Nat} {item : Nat} :
    halvingContains items item ↔
      items[halvingPlace items item 0 items.length]? = some item := by
  rw [halvingContains, beq_iff_eq]

/-- What is found is there. -/
theorem mem_of_halvingContains {items : List Nat} {item : Nat} (h : halvingContains items item) :
    item ∈ items :=
  List.mem_of_getElem? (halvingContains_iff.mp h)

/-- **Search by halving finds every item of a list in ascending order.** The entries before a turn
are at most the item and those after it are above, so that an item which occurs is at the turn
itself, perhaps not for the first time. -/
theorem halvingContains_of_mem {items : List Nat} (hitems : items.Pairwise (· ≤ ·)) {item : Nat}
    (hmem : item ∈ items) : halvingContains items item := by
  have hturn := turnsAt_of_mem hmem
  rw [halvingContains_iff]
  generalize halvingPlace items item 0 items.length = place at hturn ⊢
  obtain ⟨i, hi, rfl⟩ := List.getElem_of_mem hmem
  have horder {i j : Nat} (hij : i ≤ j) (hj : j < items.length) :
      items.getD i 0 ≤ items.getD j 0 := by
    rcases Nat.lt_or_eq_of_le hij with hlt | rfl
    · have hle := List.pairwise_iff_getElem.mp hitems i j (by omega) hj hlt
      rwa [List.getElem_eq_getD 0, List.getElem_eq_getD 0] at hle
    · exact Nat.le_refl _
  have hplace := hturn.lt_stop
  rw [List.getElem?_eq_getElem hplace, Option.some.injEq, List.getElem_eq_getD 0,
    List.getElem_eq_getD 0]
  -- nothing after the turn is the item, so the item is at the turn or before it
  have hbefore : i ≤ place := by
    by_contra hafter
    have hle := horder (show place + 1 ≤ i by omega) hi
    have hnext := hturn.lt_next
    rw [List.getElem_eq_getD 0] at hnext
    omega
  have hle := horder hbefore hplace
  have hentry := hturn.entry_le
  rw [List.getElem_eq_getD 0] at hentry
  rcases hentry with hzero | hentry
  · obtain rfl : i = place := by omega
    rfl
  · omega

/-- **A list in which every item is found is in ascending order**, if no entry that came before a
smaller one comes again. Otherwise the largest entry before a drop would be found: the search for it
would have to turn after an entry that is larger still. -/
theorem pairwise_of_halvingContains {items : List Nat}
    (hreturn : ∀ x y, y < x → ¬[x, y, x].Sublist items)
    (hfound : ∀ x ∈ items, halvingContains items x) : items.Pairwise (· ≤ ·) := by
  rw [List.pairwise_iff_getElem]
  intro i j hi hj hij
  rw [List.getElem_eq_getD 0, List.getElem_eq_getD 0]
  by_contra hdrop
  -- of the entries before place `j` take the largest, which is above the one there
  obtain ⟨k, hk, hmax⟩ := Finset.exists_max_image (Finset.range j) (items.getD · 0)
    ⟨i, Finset.mem_range.mpr hij⟩
  rw [Finset.mem_range] at hk
  have habove : items.getD j 0 < items.getD k 0 := by
    have := hmax i (Finset.mem_range.mpr hij)
    omega
  have hmem : items.getD k 0 ∈ items := by
    rw [← List.getElem_eq_getD (h := by omega) 0]
    exact List.getElem_mem _
  have hturn := turnsAt_of_mem hmem
  have hitem := halvingContains_iff.mp (hfound _ hmem)
  generalize halvingPlace items (items.getD k 0) 0 items.length = place at hturn hitem
  obtain ⟨hplace, hitem⟩ := List.getElem?_eq_some_iff.mp hitem
  -- the search ends before `j`, since the entry does not come again
  have hbefore : place < j := by
    by_contra hafter
    rcases Nat.lt_or_eq_of_le (Nat.le_of_not_lt hafter) with hlt | rfl
    · refine hreturn _ _ habove ?_
      have hplaces : [(⟨k, by omega⟩ : Fin items.length), ⟨j, hj⟩, ⟨place, hplace⟩].Pairwise
          (· < ·) := by
        simp [hk, hlt, Nat.lt_trans hk hlt]
      have hsub := List.map_getElem_sublist hplaces
      simp only [List.map_cons, List.map_nil, Fin.getElem_fin] at hsub
      rwa [hitem, List.getElem_eq_getD 0, List.getElem_eq_getD 0] at hsub
    · rw [List.getElem_eq_getD 0] at hitem
      omega
  -- so it turns at an entry that is larger still
  rcases hturn.lt_next with hend | hnext
  · omega
  · rcases Nat.lt_or_eq_of_le (show place + 1 ≤ j by omega) with hlt | heq
    · have := hmax (place + 1) (Finset.mem_range.mpr hlt)
      omega
    · rw [← heq] at habove
      omega

end MacroScript
