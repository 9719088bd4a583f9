import Mathlib.Data.List.Nodup

set_option autoImplicit false

/-! A list of writes, the newest first, of which some have to last, and answers that are at
least as new as every one of these. -/

namespace Chronicle

variable {Write : Type} {lasting lasting' : Write → Prop} {history : List Write}
  {answer : Option Write}

/-- The answer is a write that nothing lasting is newer than, or there is nothing lasting. -/
def UpToDate (lasting : Write → Prop) (history : List Write) : Option Write → Prop
  | some e => ∃ newer older, history = newer ++ e :: older ∧ ∀ w ∈ newer, ¬ lasting w
  | none => ∀ w ∈ history, ¬ lasting w

theorem UpToDate.mem {e : Write} (current : UpToDate lasting history (some e)) : e ∈ history := by
  obtain ⟨newer, older, split, _⟩ := current
  rw [split]
  exact List.mem_append_right _ List.mem_cons_self

/-- An answer stays good when less has to last. -/
theorem UpToDate.mono (current : UpToDate lasting history answer)
    (fewer : ∀ w ∈ history, lasting' w → lasting w) : UpToDate lasting' history answer := by
  cases answer with
  | none => exact fun w member lasts => current w member (fewer w member lasts)
  | some e =>
      obtain ⟨newer, older, split, none_newer⟩ := current
      refine ⟨newer, older, split, fun w member lasts => none_newer w member (fewer w ?_ lasts)⟩
      rw [split]
      exact List.mem_append_left _ member

/-- Newer writes that need not last do not matter. -/
theorem UpToDate.behind (current : UpToDate lasting history answer) {front : List Write}
    (passing : ∀ w ∈ front, ¬ lasting w) : UpToDate lasting (front ++ history) answer := by
  cases answer with
  | none =>
      intro w member
      rcases List.mem_append.mp member with new | old
      · exact passing w new
      · exact current w old
  | some e =>
      obtain ⟨newer, older, split, none_newer⟩ := current
      refine ⟨front ++ newer, older, by rw [split, List.append_assoc], fun w member => ?_⟩
      rcases List.mem_append.mp member with new | old
      · exact passing w new
      · exact none_newer w old

/-- Nor do older ones. -/
theorem UpToDate.before {e : Write} (current : UpToDate lasting history (some e))
    (back : List Write) : UpToDate lasting (history ++ back) (some e) := by
  obtain ⟨newer, older, split, none_newer⟩ := current
  exact ⟨newer, older ++ back, by rw [split, List.append_assoc, List.cons_append], none_newer⟩

/-- Where stamps go up, it is enough to look at the lasting writes with a higher stamp. -/
theorem upToDate_of_stamp {stamp : Write → Nat}
    (sorted : history.Pairwise fun new old => stamp old < stamp new) {e : Write}
    (member : e ∈ history) (none_newer : ∀ w ∈ history, stamp e < stamp w → ¬ lasting w) :
    UpToDate lasting history (some e) := by
  obtain ⟨newer, older, split⟩ := List.append_of_mem member
  refine ⟨newer, older, split, fun w inside => ?_⟩
  rw [split] at sorted
  have above := (List.pairwise_append.mp sorted).2.2 w inside e List.mem_cons_self
  apply none_newer w _ above
  rw [split]
  exact List.mem_append_left _ inside

/-- Where stamps go up, no two writes have one stamp. -/
theorem eq_of_stamp {stamp : Write → Nat}
    (sorted : history.Pairwise fun new old => stamp old < stamp new) {e e' : Write}
    (here : e ∈ history) (there : e' ∈ history) (same : stamp e = stamp e') : e = e' := by
  have distinct : (history.map stamp).Nodup := by
    apply List.pairwise_map.mpr
    exact sorted.imp fun below => Nat.ne_of_gt below
  exact List.inj_on_of_nodup_map distinct here there same

end Chronicle
