import Mathlib.Data.List.Basic
import Mathlib.Order.Lattice

set_option autoImplicit false

/-! Finite maps as association lists in strictly ascending order of their keys. -/

namespace SortedEntries

variable {Key Value : Type} [LinearOrder Key]

def Sorted (entries : List (Key × Value)) : Prop :=
  (entries.map Prod.fst).Pairwise (· < ·)

/-- The list with `value` stored under `key`, in place of an older value. -/
def insertEntry (key : Key) (value : Value) : List (Key × Value) → List (Key × Value)
  | [] => [(key, value)]
  | (other, held) :: rest =>
      if key < other then (key, value) :: (other, held) :: rest
      else if key = other then (key, value) :: rest
      else (other, held) :: insertEntry key value rest

omit [LinearOrder Key] in
@[simp] theorem map_fst_cons (entry : Key × Value) (rest : List (Key × Value)) :
    (entry :: rest).map Prod.fst = entry.1 :: rest.map Prod.fst := rfl

theorem sorted_nil : Sorted ([] : List (Key × Value)) := List.Pairwise.nil

theorem sorted_cons {entry : Key × Value} {rest : List (Key × Value)} :
    Sorted (entry :: rest) ↔ (∀ other ∈ rest, entry.1 < other.1) ∧ Sorted rest := by
  rw [Sorted, map_fst_cons, List.pairwise_cons]
  constructor
  · rintro ⟨below, sorted⟩
    exact ⟨fun other member => below _ (List.mem_map_of_mem member), sorted⟩
  · rintro ⟨below, sorted⟩
    refine ⟨?_, sorted⟩
    intro key member
    obtain ⟨other, inside, rfl⟩ := List.mem_map.mp member
    exact below other inside

theorem sorted_append {front back : List (Key × Value)} :
    Sorted (front ++ back) ↔
      Sorted front ∧ Sorted back ∧ ∀ left ∈ front, ∀ right ∈ back, left.1 < right.1 := by
  induction front with
  | nil => simp [sorted_nil]
  | cons entry rest ih =>
      rw [List.cons_append, sorted_cons, sorted_cons, ih]
      constructor
      · rintro ⟨below, first, second, across⟩
        refine ⟨⟨fun other member => below other (List.mem_append_left _ member), first⟩, second,
          ?_⟩
        intro left member right inside
        rcases List.mem_cons.mp member with rfl | later
        · exact below right (List.mem_append_right _ inside)
        · exact across left later right inside
      · rintro ⟨⟨below, first⟩, second, across⟩
        refine ⟨?_, first, second, ?_⟩
        · intro other member
          rcases List.mem_append.mp member with before | after
          · exact below other before
          · exact across entry List.mem_cons_self other after
        · intro left member right inside
          exact across left (List.mem_cons_of_mem _ member) right inside

theorem lookup_none {entries : List (Key × Value)} {key : Key}
    (absent : ∀ entry ∈ entries, entry.1 ≠ key) : entries.lookup key = none := by
  induction entries with
  | nil => rfl
  | cons entry rest ih =>
      have different : (key == entry.1) = false := by
        rw [beq_eq_false_iff_ne]
        exact (absent entry List.mem_cons_self).symm
      rw [List.lookup_cons, different]
      exact ih fun other member => absent other (List.mem_cons_of_mem _ member)

theorem lookup_cons_ne {key other : Key} (different : key ≠ other) (value : Value)
    (rest : List (Key × Value)) : ((other, value) :: rest).lookup key = rest.lookup key := by
  have distinct : (key == other) = false := beq_eq_false_iff_ne.mpr different
  rw [List.lookup_cons, distinct]

theorem lookup_append_none {front back : List (Key × Value)} {key : Key}
    (absent : ∀ entry ∈ front, entry.1 ≠ key) :
    (front ++ back).lookup key = back.lookup key := by
  rw [List.lookup_append, lookup_none absent]
  rfl

theorem mem_of_lookup {entries : List (Key × Value)} {key : Key} {value : Value}
    (found : entries.lookup key = some value) : (key, value) ∈ entries := by
  induction entries with
  | nil => cases found
  | cons entry rest ih =>
      obtain ⟨other, held⟩ := entry
      by_cases same : key = other
      · subst same
        rw [List.lookup_cons_self, Option.some.injEq] at found
        subst found
        exact List.mem_cons_self
      · rw [lookup_cons_ne same] at found
        exact List.mem_cons_of_mem _ (ih found)

theorem lookup_of_mem {entries : List (Key × Value)} (sorted : Sorted entries) {key : Key}
    {value : Value} (member : (key, value) ∈ entries) : entries.lookup key = some value := by
  induction entries with
  | nil => cases member
  | cons entry rest ih =>
      obtain ⟨other, held⟩ := entry
      obtain ⟨below, later⟩ := sorted_cons.mp sorted
      rcases List.mem_cons.mp member with here | inside
      · cases here
        exact List.lookup_cons_self
      · have different : key ≠ other := ne_of_gt (below (key, value) inside)
        rw [lookup_cons_ne different]
        exact ih later inside

theorem lookup_insertEntry (key : Key) (value : Value) (entries : List (Key × Value)) (k : Key) :
    (insertEntry key value entries).lookup k = if k = key then some value else entries.lookup k := by
  induction entries with
  | nil =>
      by_cases same : k = key
      · subst same
        rw [insertEntry, List.lookup_cons_self, if_pos rfl]
      · rw [insertEntry, if_neg same, lookup_cons_ne same]
  | cons entry rest ih =>
      obtain ⟨other, held⟩ := entry
      rw [insertEntry]
      by_cases before : key < other
      · rw [if_pos before]
        by_cases same : k = key
        · rw [if_pos same, same, List.lookup_cons_self]
        · rw [if_neg same, lookup_cons_ne same]
      · rw [if_neg before]
        by_cases here : key = other
        · rw [if_pos here]
          by_cases same : k = key
          · rw [if_pos same, same, List.lookup_cons_self]
          · rw [if_neg same, lookup_cons_ne same, lookup_cons_ne (here ▸ same)]
        · rw [if_neg here]
          by_cases first : k = other
          · subst first
            rw [List.lookup_cons_self, List.lookup_cons_self, if_neg (Ne.symm here)]
          · rw [lookup_cons_ne first, lookup_cons_ne first, ih]

theorem mem_insertEntry {key : Key} {value : Value} {entries : List (Key × Value)}
    {entry : Key × Value} (member : entry ∈ insertEntry key value entries) :
    entry = (key, value) ∨ entry ∈ entries := by
  induction entries with
  | nil => exact Or.inl (List.mem_singleton.mp member)
  | cons head rest ih =>
      obtain ⟨other, held⟩ := head
      rw [insertEntry] at member
      split at member
      · exact (List.mem_cons.mp member)
      · split at member
        · rcases List.mem_cons.mp member with new | old
          · exact Or.inl new
          · exact Or.inr (List.mem_cons_of_mem _ old)
        · rcases List.mem_cons.mp member with first | later
          · exact Or.inr (first ▸ List.mem_cons_self)
          · exact (ih later).imp id (List.mem_cons_of_mem _)

theorem insertEntry_sorted {entries : List (Key × Value)} (sorted : Sorted entries) (key : Key)
    (value : Value) : Sorted (insertEntry key value entries) := by
  induction entries with
  | nil => exact List.pairwise_singleton _ _
  | cons head rest ih =>
      obtain ⟨other, held⟩ := head
      obtain ⟨below, later⟩ := sorted_cons.mp sorted
      rw [insertEntry]
      split
      · rename_i before
        rw [sorted_cons]
        refine ⟨?_, sorted⟩
        intro entry member
        rcases List.mem_cons.mp member with rfl | inside
        · exact before
        · exact lt_trans before (below entry inside)
      · split
        · rename_i same
          subst same
          exact sorted_cons.mpr ⟨below, later⟩
        · rename_i notBefore different
          rw [sorted_cons]
          refine ⟨?_, ih later⟩
          intro entry member
          rcases mem_insertEntry member with rfl | inside
          · exact lt_of_le_of_ne (not_lt.mp notBefore) (Ne.symm different)
          · exact below entry inside

/-- Behind smaller keys the rest of the list takes the entry. -/
theorem insertEntry_append {front : List (Key × Value)} {key : Key}
    (smaller : ∀ entry ∈ front, entry.1 < key) (value : Value) (back : List (Key × Value)) :
    insertEntry key value (front ++ back) = front ++ insertEntry key value back := by
  induction front with
  | nil => rfl
  | cons head rest ih =>
      obtain ⟨other, held⟩ := head
      have after : other < key := smaller (other, held) List.mem_cons_self
      rw [List.cons_append, insertEntry, if_neg (not_lt.mpr (le_of_lt after)), if_neg (ne_of_gt after),
        ih fun entry member => smaller entry (List.mem_cons_of_mem _ member), List.cons_append]

/-- In front of greater keys the list before them takes the entry. -/
theorem insertEntry_before {back : List (Key × Value)} {key : Key}
    (greater : ∀ entry ∈ back, key < entry.1) (value : Value) (front : List (Key × Value)) :
    insertEntry key value (front ++ back) = insertEntry key value front ++ back := by
  induction front with
  | nil =>
      cases back with
      | nil => rfl
      | cons head rest =>
          obtain ⟨other, held⟩ := head
          have first : key < other := greater (other, held) List.mem_cons_self
          simp only [List.nil_append, insertEntry, if_pos first, List.cons_append]
  | cons head rest ih =>
      obtain ⟨other, held⟩ := head
      rw [List.cons_append, insertEntry, insertEntry]
      split
      · rfl
      · split
        · rfl
        · rw [ih, List.cons_append]

theorem length_insertEntry {entries : List (Key × Value)} (sorted : Sorted entries) (key : Key)
    (value : Value) : (insertEntry key value entries).length =
      if (entries.lookup key).isSome then entries.length else entries.length + 1 := by
  induction entries with
  | nil => rfl
  | cons head rest ih =>
      obtain ⟨other, held⟩ := head
      obtain ⟨below, later⟩ := sorted_cons.mp sorted
      rw [insertEntry]
      by_cases before : key < other
      · have absent : ((other, held) :: rest).lookup key = none := by
          apply lookup_none
          intro entry member
          rcases List.mem_cons.mp member with rfl | inside
          · exact before.ne'
          · exact (lt_trans before (below entry inside)).ne'
        rw [if_pos before, absent]
        rfl
      · rw [if_neg before]
        by_cases here : key = other
        · subst here
          rw [if_pos rfl, List.lookup_cons_self]
          rfl
        · rw [if_neg here, lookup_cons_ne here, List.length_cons, ih later, List.length_cons]
          split <;> rfl

end SortedEntries
