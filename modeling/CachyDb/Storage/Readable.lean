import CachyDb.Storage.Logged
import CachyDb.Storage.Regular

set_option autoImplicit false

/-! A table file can be opened again at any time, and what it had when it was synced it still
has, whatever the flushes of the table do, also two of them at once. -/

namespace CachyDb

open ByteString TableHandler

namespace TableHandler

/-- A page that is stored can be read from the file, and the others are as before. -/
theorem store_readable {h h' : TableHandler} (formed : h.WellFormed)
    (readable : (openTable h.file).WellFormed) {page : Page} (shape : page.WellFormed)
    (place : page.pageId ≤ h.totalPages) (done : h.store page = .ok h') :
    (openTable h'.file).WellFormed := by
  obtain ⟨formed', pages, _, _, bytes, read⟩ := formed.store shape place done
  refine ⟨formed'.aligned, fun _ _ loaded => (by cases loaded), fun pageId inside => ?_⟩
  by_cases here : pageId = page.pageId
  · subst here
    exact ⟨_, Table.view_opened.mpr ⟨inside, read⟩, shape.sealed, rfl⟩
  · have before : pageId < h.totalPages := by
      have last : pageId < h'.totalPages := inside
      omega
    obtain ⟨old, seen, formed, same⟩ := readable.readable pageId before
    have unchanged : Table.onDisk h'.file pageId = Table.onDisk h.file pageId :=
      bytes pageId before here
    refine ⟨old, Table.view_opened.mpr ⟨inside, ?_⟩, formed, same⟩
    rw [unchanged]
    exact (Table.view_opened.mp seen).2

section

variable {h h' : TableHandler}

theorem allocatePage_readable (formed : h.WellFormed) (readable : (openTable h.file).WellFormed)
    {pageId : Nat} (done : h.allocatePage = .ok (pageId, h')) : (openTable h'.file).WellFormed := by
  unfold TableHandler.allocatePage at done
  cases result : h.store (Page.init h.totalPages) with
  | error e =>
      rw [result] at done
      cases done
  | ok stored =>
      rw [result] at done
      cases done
      exact store_readable formed readable (Page.init_wellFormed _) (Nat.le_refl _) result

theorem writeDirty_readable (formed : h.WellFormed) (readable : (openTable h.file).WellFormed)
    {job : Table.FlushJob} (done : Table.writeDirty h job = .ok h') :
    (openTable h'.file).WellFormed := by
  unfold Table.writeDirty at done
  split at done
  · split at done
    · cases done
    · rename_i page loaded
      have inside := formed.loaded job.pageId page loaded
      obtain ⟨held, seen, shape, same⟩ := formed.readable job.pageId inside
      have cached : h.view job.pageId = some page := view_of_cached loaded
      rw [cached, Option.some.injEq] at seen
      subst seen
      unfold writePage at done
      split at done
      · cases done
      · exact store_readable formed readable shape (by omega) done
  · cases done
    exact readable

end

end TableHandler

/-- Every step of a flush leaves a file that can be opened. -/
theorem Task.fill_readable {h : TableHandler} (coherent : h.Coherent)
    (readable : (openTable h.file).WellFormed) (task : Task) :
    (openTable (task.fill h).1.file).WellFormed := by
  cases phase : task.phase with
  | sizing =>
      simp only [Task.fill, phase]
      split
      · exact readable
      · exact readable
  | allocating =>
      simp only [Task.fill, phase]
      split
      · exact readable
      · rename_i done
        exact allocatePage_readable coherent.formed readable done
  | opening =>
      simp only [Task.fill, phase]
      split
      · exact readable
      · rename_i loaded read
        rw [(coherent.readPage read).2.1]
        exact readable
  | checking =>
      simp only [Task.fill, phase]
      split
      · exact readable
      · split
        · exact readable
        · exact readable
      · exact readable
  | saving =>
      simp only [Task.fill, phase]
      split
      · exact readable
      · rename_i done
        exact writeDirty_readable coherent.formed readable done
  | growing =>
      simp only [Task.fill, phase]
      split
      · exact readable
      · rename_i done
        exact allocatePage_readable coherent.formed readable done
  | reopening =>
      simp only [Task.fill, phase]
      split
      · exact readable
      · rename_i loaded read
        rw [(coherent.readPage read).2.1]
        exact readable
  | inserting =>
      simp only [Task.fill, phase]
      split
      · exact readable
      · split
        · exact readable
        · rename_i done
          -- a record goes into the object of its page
          unfold Table.placeRecord at done
          split at done
          · cases done
          · split at done
            · cases done
            · cases done
              exact readable
  | closing =>
      simp only [Task.fill, phase]
      split
      · exact readable
      · rename_i done
        exact writeDirty_readable coherent.formed readable done
  | _ =>
      simp only [Task.fill, phase]
      exact readable

namespace Site

/-- The file can be opened again. -/
def Readable (s : Site) : Prop := (openTable s.table.handler.file).WellFormed

/-- What the file had at its last sync it still has. -/
def Synced (s : Site) : Prop :=
  ∀ place payload, OnFile s.synced place payload → OnFile s.table.handler.file place payload

variable {s : Site}

theorem Readable.act (readable : s.Readable) (sound : s.Sound) {act : Act} (valid : act.Valid s)
    (reads : ∀ h, act = .load h → h.file = s.table.handler.file) : (s.act act).Readable := by
  cases act with
  | enter entries txIds =>
      obtain ⟨_, _, _, _, _, handler⟩ := s.enterAll_frame entries
      show (openTable (entries.foldl Site.enter s).table.handler.file).WellFormed
      rw [handler]
      exact readable
  | load h =>
      show (openTable h.file).WellFormed
      rw [reads h rfl]
      exact readable
  | advance i task =>
      show (openTable (s.advance i task).table.handler.file).WellFormed
      unfold advance
      split
      case h_7 => exact task.fill_readable sound.coherent readable
      all_goals exact readable
  | _ => exact readable

theorem enterAll_synced (entries : List Entry) (s : Site) :
    (entries.foldl Site.enter s).synced = s.synced := by
  induction entries generalizing s with
  | nil => rfl
  | cons e rest ih => exact ih (s.enter e)

/-- A sync takes over what the file has. -/
theorem act_synced (s : Site) (act : Act) : (s.act act).synced = s.synced ∨
    ((s.act act).synced = s.table.handler.file ∧
      (s.act act).table.handler.file = s.table.handler.file) := by
  cases act with
  | enter entries txIds => exact Or.inl (enterAll_synced entries s)
  | advance i task =>
      show (s.advance i task).synced = s.synced ∨ ((s.advance i task).synced = _ ∧
        (s.advance i task).table.handler.file = _)
      unfold advance
      split
      case h_4 => exact Or.inr ⟨rfl, rfl⟩
      all_goals exact Or.inl rfl
  | _ => exact Or.inl rfl

theorem Synced.act (synced : s.Synced) (sound : s.Sound) {act : Act} (valid : act.Valid s) :
    (s.act act).Synced := by
  intro place payload there
  rcases s.act_synced act with same | ⟨same, file⟩
  · rw [same] at there
    exact sound.act_onFile valid (synced place payload there)
  · rw [same] at there
    rw [file]
    exact there

/-- Nothing leaves the file as of the last sync. -/
theorem Synced.act_onFile (synced : s.Synced) {act : Act} {place : Nat × Nat} {payload : Bytes}
    (there : OnFile s.synced place payload) : OnFile (s.act act).synced place payload := by
  rcases s.act_synced act with same | ⟨same, _⟩
  · rw [same]
    exact there
  · rw [same]
    exact synced place payload there

/-- The file as of the last sync has a record of the key that entered with `e` or after it. -/
def Remembers (s : Site) (e : Entry) : Prop :=
  ∃ newer older e' place, s.written = newer ++ e :: older ∧ e' ∈ newer ++ [e] ∧ e'.key = e.key ∧
    OnFile s.synced place e'.packed

theorem Remembers.act {e : Entry} (remembers : s.Remembers e) (synced : s.Synced) (act : Act) :
    (s.act act).Remembers e := by
  obtain ⟨newer, older, e', place, whole, recent, key, there⟩ := remembers
  have more : ∃ added, (s.act act).written = added ++ s.written := by
    rw [act_written]
    cases act with
    | enter entries txIds => exact ⟨entries.reverse, rfl⟩
    | _ => exact ⟨[], rfl⟩
  obtain ⟨added, written⟩ := more
  refine ⟨added ++ newer, older, e', place, ?_, ?_, key, synced.act_onFile there⟩
  · rw [written, whole, List.append_assoc]
  · rw [List.append_assoc]
    exact List.mem_append_right _ recent

/-- What a flush is about to mark is remembered. -/
theorem Sound.remembers (sound : s.Sound) (traced : s.Traced) {task : Task}
    (member : task ∈ s.tasks) (marking : task.phase = .marking) {txId : Nat}
    (marked : txId ∈ task.txIds) : ∃ e, e.txId = txId ∧ s.Remembers e := by
  have done := sound.tasks task member
  have sourced := done.sourced (by rw [marking]; decide)
  obtain ⟨e, inside, id⟩ := sourced.txIds txId marked
  obtain ⟨newer, older, e', split, newest, held⟩ := newest_since inside
  have record : (e.key, e'.packed) ∈ task.records := by
    apply (sourced.records e.key e'.packed).mpr
    rw [held, Option.map_some]
  obtain ⟨place, there⟩ := done.onDisk (by rw [marking]; decide) _ record
  obtain ⟨front, back, whole⟩ := traced task member
  obtain ⟨recent, key⟩ := latest_mem newest
  refine ⟨e, id, front ++ newer, older ++ back, e', place, ?_, ?_, key, there⟩
  · rw [← whole, split, List.append_assoc, List.append_assoc, List.append_assoc, List.cons_append]
  · rw [List.append_assoc]
    exact List.mem_append_right _ recent

end Site

end CachyDb
