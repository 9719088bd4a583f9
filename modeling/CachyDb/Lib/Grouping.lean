import Mathlib.Data.List.Induction
import Mathlib.Order.Lattice

set_option autoImplicit false

/-! Grouping a list by a key in order of first appearance, as a `defaultdict`
of lists does. -/

namespace Grouping

variable {Key Item : Type} [DecidableEq Key]

/-- `groups[key].append(item)`. -/
def push : List (Key × List Item) → Key → Item → List (Key × List Item)
  | [], key, item => [(key, [item])]
  | (key', items) :: rest, key, item =>
      if key' = key then (key', items ++ [item]) :: rest else (key', items) :: push rest key item

def groupBy (key : Item → Key) (items : List Item) : List (Key × List Item) :=
  items.foldl (fun groups item => push groups (key item) item) []

theorem groupBy_snoc (key : Item → Key) (items : List Item) (item : Item) :
    groupBy key (items ++ [item]) = push (groupBy key items) (key item) item := by
  simp only [groupBy, List.foldl_append, List.foldl_cons, List.foldl_nil]

theorem mem_push {groups : List (Key × List Item)} {key : Key} {item : Item}
    {group : Key × List Item} (member : group ∈ push groups key item) :
    group ∈ groups ∨ (group.1 = key ∧ ∃ old, (old = [] ∨ (key, old) ∈ groups) ∧
      group.2 = old ++ [item]) := by
  induction groups with
  | nil =>
      simp only [push, List.mem_singleton] at member
      subst member
      exact Or.inr ⟨rfl, [], Or.inl rfl, rfl⟩
  | cons head rest ih =>
      obtain ⟨key', items⟩ := head
      rw [push] at member
      split at member
      · rename_i same
        subst same
        rcases List.mem_cons.mp member with rfl | member
        · exact Or.inr ⟨rfl, items, Or.inr (by simp), rfl⟩
        · exact Or.inl (List.mem_cons_of_mem _ member)
      · rcases List.mem_cons.mp member with rfl | member
        · exact Or.inl (by simp)
        · rcases ih member with old | ⟨same, old, origin, whole⟩
          · exact Or.inl (List.mem_cons_of_mem _ old)
          · exact Or.inr ⟨same, old, origin.imp id (List.mem_cons_of_mem _), whole⟩

/-- Every group is non-empty and holds items of its own key. -/
theorem mem_groupBy {key : Item → Key} {items : List Item} {group : Key × List Item}
    (member : group ∈ groupBy key items) :
    group.2 ≠ [] ∧ ∀ item ∈ group.2, key item = group.1 ∧ item ∈ items := by
  induction items using List.reverseRecOn generalizing group with
  | nil => cases member
  | append_singleton items item ih =>
      rw [groupBy_snoc] at member
      rcases mem_push member with old | ⟨same, old, origin, whole⟩
      · obtain ⟨nonempty, each⟩ := ih old
        exact ⟨nonempty, fun x inside =>
          ⟨(each x inside).1, List.mem_append_left _ (each x inside).2⟩⟩
      · refine ⟨by rw [whole]; simp, fun x inside => ?_⟩
        rw [whole, List.mem_append, List.mem_singleton] at inside
        rcases inside with inside | rfl
        · rcases origin with rfl | known
          · cases inside
          · obtain ⟨_, each⟩ := ih known
            exact ⟨by rw [same]; exact (each x inside).1, List.mem_append_left _ (each x inside).2⟩
        · exact ⟨same.symm, by simp⟩

theorem push_covers (groups : List (Key × List Item)) (key : Key) (item : Item) :
    ∃ group ∈ push groups key item, item ∈ group.2 := by
  induction groups with
  | nil => exact ⟨(key, [item]), by simp [push], by simp⟩
  | cons head rest ih =>
      obtain ⟨key', items⟩ := head
      rw [push]
      split
      · exact ⟨_, List.mem_cons_self, by simp⟩
      · exact ih.imp fun group both => ⟨List.mem_cons_of_mem _ both.1, both.2⟩

theorem push_keeps {groups : List (Key × List Item)} (key : Key) (item : Item) {other : Item}
    (known : ∃ group ∈ groups, other ∈ group.2) :
    ∃ group ∈ push groups key item, other ∈ group.2 := by
  induction groups with
  | nil => obtain ⟨_, member, _⟩ := known; cases member
  | cons head rest ih =>
      obtain ⟨key', items⟩ := head
      obtain ⟨group, member, inside⟩ := known
      rw [push]
      rcases List.mem_cons.mp member with rfl | member
      · split
        · exact ⟨_, List.mem_cons_self, List.mem_append_left _ inside⟩
        · exact ⟨_, List.mem_cons_self, inside⟩
      · split
        · exact ⟨group, List.mem_cons_of_mem _ member, inside⟩
        · exact (ih ⟨group, member, inside⟩).imp fun group both =>
            ⟨List.mem_cons_of_mem _ both.1, both.2⟩

/-- No item is dropped by the grouping. -/
theorem groupBy_covers (key : Item → Key) {items : List Item} {item : Item}
    (member : item ∈ items) : ∃ group ∈ groupBy key items, item ∈ group.2 := by
  induction items using List.reverseRecOn with
  | nil => cases member
  | append_singleton items last ih =>
      rw [groupBy_snoc]
      rcases List.mem_append.mp member with member | member
      · exact push_keeps _ _ (ih member)
      · rw [List.mem_singleton] at member
        subst member
        exact push_covers _ _ _

section Ascending

variable {Key Item : Type} [LinearOrder Key]

/-- Pushing a key that no earlier group exceeds keeps the groups in order, and
puts the item at the very end of the concatenation. -/
theorem push_ascending (groups : List (Key × List Item)) (key : Key) (item : Item)
    (ascending : (groups.map Prod.fst).Pairwise (· < ·))
    (below : ∀ group ∈ groups, group.1 ≤ key) :
    ((push groups key item).map Prod.fst).Pairwise (· < ·) ∧
      (∀ group ∈ push groups key item, group.1 ≤ key) ∧
      (push groups key item).flatMap Prod.snd = groups.flatMap Prod.snd ++ [item] := by
  induction groups with
  | nil => simp [push]
  | cons head rest ih =>
      obtain ⟨key', items⟩ := head
      rw [List.map_cons, List.pairwise_cons] at ascending
      obtain ⟨least, ascending⟩ := ascending
      have bound : key' ≤ key := below _ List.mem_cons_self
      have rest_below : ∀ group ∈ rest, group.1 ≤ key :=
        fun group member => below group (List.mem_cons_of_mem _ member)
      obtain ⟨ordered, bounded, flat⟩ := ih ascending rest_below
      rw [push]
      split
      · rename_i same
        -- the group of `key` has to be the last one: every later key would exceed it
        have last : rest = [] := by
          by_contra some_rest
          obtain ⟨group, member⟩ := List.exists_mem_of_ne_nil rest some_rest
          have above := least group.1 (List.mem_map_of_mem member)
          exact absurd (lt_of_lt_of_le above (rest_below group member)) (by rw [same]; exact lt_irrefl _)
        subst last
        refine ⟨by simp, ?_, by simp⟩
        intro group member
        rw [List.mem_singleton] at member
        subst member
        exact bound
      · rename_i different
        refine ⟨?_, ?_, ?_⟩
        · rw [List.map_cons, List.pairwise_cons]
          refine ⟨fun later member => ?_, ordered⟩
          obtain ⟨group, inside, rfl⟩ := List.mem_map.mp member
          rcases mem_push inside with old | ⟨same, _⟩
          · exact least group.1 (List.mem_map_of_mem old)
          · rw [same]
            exact lt_of_le_of_ne bound different
        · intro group member
          rcases List.mem_cons.mp member with rfl | member
          · exact bound
          · exact bounded group member
        · simp only [List.flatMap_cons, flat, List.append_assoc]

/-- On items whose keys ascend, grouping only cuts the list into its runs. -/
theorem groupBy_ascending {key : Item → Key} {items : List Item}
    (ascending : (items.map key).Pairwise (· ≤ ·)) :
    ((groupBy key items).map Prod.fst).Pairwise (· < ·) ∧
      (groupBy key items).flatMap Prod.snd = items := by
  induction items using List.reverseRecOn with
  | nil => simp [groupBy]
  | append_singleton items item ih =>
      rw [List.map_append, List.pairwise_append] at ascending
      obtain ⟨front, _, cross⟩ := ascending
      obtain ⟨ordered, flat⟩ := ih front
      have below : ∀ group ∈ groupBy key items, group.1 ≤ key item := by
        intro group member
        obtain ⟨nonempty, each⟩ := mem_groupBy member
        obtain ⟨x, inside⟩ := List.exists_mem_of_ne_nil _ nonempty
        rw [← (each x inside).1]
        exact cross _ (List.mem_map_of_mem (each x inside).2) _ (by simp)
      have pushed := push_ascending _ (key item) item ordered below
      rw [groupBy_snoc, pushed.2.2, flat]
      exact ⟨pushed.1, rfl⟩

end Ascending

end Grouping
