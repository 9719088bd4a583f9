import CachyDb.Storage.Dictionary

set_option autoImplicit false

/-! Which values are taken for manifests: those that `set` has written in chunks, as long as no
user value has the flag of a manifest. -/

namespace CachyDb

open ByteString Router Transition

namespace Dictionary

/-- A call whose values have not the flag of a manifest, and that writes no chunk of a key that
is in chunks. -/
def Honest (json : Json) (d : Dictionary) : Store.Call → Prop
  | .set name key value => json.Faithful value ∧ flagged overflowFlag value = false ∧
      ∀ other i, key = chunkKey other i → flagged overflowFlag (d name other) = false
  | .setMany name records =>
      (∀ record ∈ records, json.Faithful record.2 ∧ flagged overflowFlag record.2 = false) ∧
      ∀ other i, chunkKey other i ∈ (manyWrites json records).map Prod.fst →
        other ∈ (manyWrites json records).map Prod.fst ∨ flagged overflowFlag (d name other) = false
  | .get _ _ => True

end Dictionary

namespace Store

open Dictionary

/-- The value that was written last under a key, and in how many chunks if it was cut. -/
def lastWrite (json : Json) (codec : Codec) (name key : String)
    (calls : List (Call × Except RouterError Value)) : Value × Option Nat :=
  calls.foldl (fun last call =>
    match call with
    | (.set other otherKey value, .ok _) =>
        if name = other ∧ key = otherKey then (value, cutIn json codec key value) else last
    | (.setMany other records, _) =>
        if name = other ∧ other ≠ "" then
          ((lastOf (manyWrites json records) key).map fun value => (value, none)).getD last
        else last
    | _ => last) (.null, none)

/-- What the dictionary has of the value that was written last: the value itself, or its manifest
and its chunks. -/
structure Genuine (json : Json) (codec : Codec) (d : Dictionary) (name key : String)
    (last : Value × Option Nat) : Prop where
  unflagged : flagged overflowFlag last.1 = false
  whole : last.2 = none →
    flagged overflowFlag (d name key) = false ∧ (isChunkKey key = false → d name key = last.1)
  cut : ∀ count, last.2 = some count → ∃ text, largeText json key last.1 = some text ∧
    json.loads text = some last.1 ∧ count = (cutChunks (codec.compress text)).length ∧
    d name key = manifest count text.length ∧
    ∀ (i : Nat) (chunk : Bytes), (cutChunks (codec.compress text))[i]? = some chunk →
      d name (chunkKey key i) = .str (codec.b64encode chunk)

section

variable {json : Json} {codec : Codec} {decoder : Decoder} {tableFiles : String → File}
  {d d' : Dictionary} {s t : Store} {name key : String} {given old : Value} {last : Value × Option Nat}
  {records : List (String × Value)}

theorem Genuine.cut_of_flagged (genuine : Genuine json codec d name key last)
    (flag : flagged overflowFlag (d name key) = true) :
    isChunkKey key = false ∧
      ∃ count size, last.2 = some count ∧ d name key = manifest count size := by
  cases cut : last.2 with
  | none =>
      rw [(genuine.whole cut).1] at flag
      cases flag
  | some count =>
      obtain ⟨text, large, _, _, listed, _⟩ := genuine.cut count cut
      exact ⟨largeText_plain large, count, text.length, rfl, listed⟩

/-- A read gives the value that was written last. -/
theorem Genuine.read (genuine : Genuine json codec d name key last)
    (inverts : decoder.Inverts codec) (plain : isChunkKey key = false) :
    d.read json decoder name key = last.1 := by
  cases cut : last.2 with
  | none =>
      obtain ⟨unflagged, same⟩ := genuine.whole cut
      rw [Dictionary.read, reading_unflagged unflagged, same plain]
  | some count =>
      obtain ⟨text, _, loads, rfl, listed, chunks⟩ := genuine.cut count cut
      rw [Dictionary.read, listed]
      exact reading_whole inverts chunks loads

/-- A key that a call leaves, with its chunks if it has some. -/
theorem Genuine.congr (genuine : Genuine json codec d name key last)
    (same : d' name key = d name key)
    (chunks : flagged overflowFlag (d name key) = true →
      ∀ i, d' name (chunkKey key i) = d name (chunkKey key i)) :
    Genuine json codec d' name key last := by
  refine ⟨genuine.unflagged, fun cut => ?_, fun count cut => ?_⟩
  · rw [same]
    exact genuine.whole cut
  · obtain ⟨text, large, loads, counted, listed, held⟩ := genuine.cut count cut
    have flag : flagged overflowFlag (d name key) = true := by
      rw [listed]
      exact (flagged_manifest _ _).1
    refine ⟨text, large, loads, counted, same.trans listed, fun i chunk there => ?_⟩
    rw [chunks flag i]
    exact held i chunk there

/-- A value that is not cut is written as it is. -/
theorem lastOf_setWrites_whole (uncut : cutIn json codec key given = none)
    (packed : packs json (key, given) = true) :
    lastOf (setWrites json codec old key given) key = some given := by
  have single : [(key, given)].takeWhile (packs json) = [(key, given)] := by simp [packed]
  unfold setWrites
  unfold cutIn at uncut
  cases large : largeText json key given with
  | none => simp [single, lastOf_append, lastOf]
  | some text =>
      rw [large] at uncut
      dsimp only at uncut ⊢
      split at uncut
      · cases uncut
      · rename_i some_not
        rw [if_neg some_not]
        simp [single, lastOf_append, lastOf]

/-- One that is cut leaves its manifest and its chunks. -/
theorem lastOf_setWrites_cut {text : Bytes} (large : largeText json key given = some text)
    (all : (largeRecords codec key text).all (packs json) = true) :
    lastOf (setWrites json codec old key given) key =
        some (manifest (cutChunks (codec.compress text)).length text.length) ∧
      ∀ (i : Nat) (chunk : Bytes), (cutChunks (codec.compress text))[i]? = some chunk →
        lastOf (setWrites json codec old key given) (chunkKey key i) =
          some (.str (codec.b64encode chunk)) := by
  have plain := largeText_plain large
  have whole : setWrites json codec old key given =
      cleanWrites json old key ++ largeRecords codec key text := by
    rw [setWrites, large]
    dsimp only
    rw [if_pos all]
  rw [whole]
  constructor
  · simp [largeRecords, lastOf_append, lastOf]
  · intro i chunk there
    have other : lastOf [(key, manifest (cutChunks (codec.compress text)).length text.length)]
        (chunkKey key i) = none := by
      simp [lastOf, ne_chunkKey plain key i]
    rw [lastOf_append, largeRecords, lastOf_append, other, Option.none_or, lastOf_chunkRecords,
      there]
    rfl

/-- A key that a `set` does not name. -/
theorem Genuine.beside {other otherKey : String}
    (genuine : Genuine json codec d other otherKey last)
    (mirrors : s.Mirrors json decoder tableFiles d) (mirrors' : t.Mirrors json decoder tableFiles d')
    (within : Within s t name (touched key)) (different : ¬ (other = name ∧ otherKey = key))
    (apart : ∀ otherKey i, key = chunkKey otherKey i →
      flagged overflowFlag (d name otherKey) = false) :
    Genuine json codec d' other otherKey last := by
  have frame {other key' : String} (outside : ¬ (other = name ∧ key' ∈ touched key)) :
      d' other key' = d other key' := by
    rw [← mirrors'.value, within.value outside, mirrors.value]
  by_cases inside : other = name ∧ otherKey ∈ touched key
  · obtain ⟨rfl, rfl | ⟨_, i, rfl⟩⟩ := inside
    · exact absurd ⟨rfl, rfl⟩ different
    · have chunk := isChunkKey_chunkKey key i
      refine ⟨genuine.unflagged, fun _ => ⟨mirrors'.chunks other _ chunk, fun plain => ?_⟩,
        fun count cut => ?_⟩
      · rw [chunk] at plain
        cases plain
      · obtain ⟨text, large, _⟩ := genuine.cut count cut
        rw [largeText_plain large] at chunk
        cases chunk
  · refine genuine.congr (frame inside) fun flag i => frame ?_
    rintro ⟨rfl, same | ⟨_, j, same⟩⟩
    · rw [apart otherKey i same.symm] at flag
      cases flag
    · exact different ⟨rfl, (chunkKey_injective same).1⟩

/-- A call of `set` that returns. -/
theorem Genuine.set (honest : Honest json d (.set name key given))
    (named : ¬ (name = "" ∨ key = "")) (written : packs json (key, given) = true ∨
      ∃ text, largeText json key given = some text ∧
        (largeRecords codec key text).all (packs json) = true) :
    Genuine json codec (d.after json codec (.set name key given)) name key
      (given, cutIn json codec key given) := by
  obtain ⟨⟨text', dumped, loads⟩, unflagged, _⟩ := honest
  have here (key' : String) : d.after json codec (.set name key given) name key' =
      (lastOf (setWrites json codec (d name key) key given) key').getD (d name key') := by
    rw [after, if_neg named, write, if_pos rfl]
  refine ⟨unflagged, fun uncut => ?_, fun count cut => ?_⟩
  · have packed : packs json (key, given) = true := by
      rcases written with packed | ⟨text, large, all⟩
      · exact packed
      · simp [cutIn, large, all] at uncut
    rw [here, lastOf_setWrites_whole uncut packed]
    exact ⟨unflagged, fun _ => rfl⟩
  · unfold cutIn at cut
    cases large : largeText json key given with
    | none =>
        rw [large] at cut
        cases cut
    | some text =>
        rw [large] at cut
        dsimp only at cut
        split at cut
        · rename_i all
          obtain ⟨listed, chunks⟩ :=
            @lastOf_setWrites_cut json codec key given (d name key) text large all
          rw [largeText_dumps large, Option.some.injEq] at dumped
          refine ⟨text, rfl, dumped ▸ loads, (Option.some.inj cut).symm, ?_,
            fun i chunk there => ?_⟩
          · rw [here, listed, ← Option.some.inj cut]
            rfl
          · rw [here, chunks i chunk there]
            rfl
        · cases cut

theorem Genuine.setMany {other otherKey : String}
    (genuine : Genuine json codec d other otherKey last)
    (honest : Honest json d (.setMany name records)) (named : name ≠ "") :
    Genuine json codec (d.after json codec (.setMany name records)) other otherKey
      (if other = name then
        ((lastOf (manyWrites json records) otherKey).map fun value => (value, none)).getD last
      else last) := by
  obtain ⟨unflagged, apart⟩ := honest
  rw [after, if_neg named]
  by_cases same : other = name
  · subst same
    rw [if_pos rfl]
    cases found : lastOf (manyWrites json records) otherKey with
    | some value =>
        have plain := (unflagged _ (manyWrites_mem (mem_of_lastOf found))).2
        refine ⟨plain, fun _ => ?_, fun count cut => (by cases cut)⟩
        rw [write, if_pos rfl, found]
        exact ⟨plain, fun _ => rfl⟩
    | none =>
        refine genuine.congr ?_ fun flag i => ?_
        · rw [write, if_pos rfl, found]
          rfl
        · rw [write, if_pos rfl, lastOf_none.mpr]
          · rfl
          · intro inside
            rcases apart otherKey i inside with written | plain
            · exact lastOf_none.mp found written
            · rw [plain] at flag
              cases flag
  · rw [if_neg same]
    refine genuine.congr ?_ fun _ i => ?_
    · rw [write, if_neg same]
    · rw [write, if_neg same]

/-- An honest call is clear where all that is in the dictionary is genuine. -/
theorem Honest.clear {call : Call} (honest : Honest json d call) (inverts : decoder.Inverts codec)
    {lasts : String → String → Value × Option Nat}
    (genuine : ∀ name key, Genuine json codec d name key (lasts name key)) :
    Clear json decoder d call := by
  cases call with
  | set name key given =>
      obtain ⟨faithful, unflagged, apart⟩ := honest
      refine ⟨faithful, fun flag => ?_, apart⟩
      rw [unflagged] at flag
      cases flag
  | setMany name records =>
      obtain ⟨unflagged, apart⟩ := honest
      refine ⟨fun record member => ⟨(unflagged record member).1, fun flag => ?_⟩, apart⟩
      rw [(unflagged record member).2] at flag
      cases flag
  | get name key =>
      intro flag
      rw [(genuine name key).read inverts ((genuine name key).cut_of_flagged flag).1]
      exact (genuine name key).unflagged

/-- One honest call. -/
theorem Genuine.call (stocked : ∀ name, Stocked json (tableFiles name))
    {calls : List (Call × Except RouterError Value)}
    {call : Call × Except RouterError Value} (mirrors : s.Mirrors json decoder tableFiles d)
    (genuine : ∀ name key, Genuine json codec d name key (lastWrite json codec name key calls))
    (honest : Honest json d call.1) (performed : Calls json codec decoder s call t)
    (mirrors' : t.Mirrors json decoder tableFiles (d.after json codec call.1)) (name key : String) :
    Genuine json codec (d.after json codec call.1) name key
      (lastWrite json codec name key (calls ++ [call])) := by
  rw [lastWrite, List.foldl_append, ← lastWrite]
  have old := genuine name key
  cases performed with
  | @get otherName other result _ reads => exact old
  | @setMany otherName records result _ distinct sets =>
      by_cases named : otherName = ""
      · simp only [List.foldl, named, ne_eq, not_true_eq_false, and_false, if_false]
        rw [after, if_pos rfl]
        exact old
      · simpa [List.foldl, named] using old.setMany honest named
  | @set otherName other given result _ sets =>
      by_cases named : otherName = "" ∨ other = ""
      · cases sets with
        | unnamed _ =>
            rw [after, if_pos named]
            exact old
        | _ => contradiction
      · obtain ⟨_, _, returns⟩ := mirrors.steady.sets_wrote stocked named sets
        obtain ⟨calm', within, outcome⟩ := mirrors.steady.calm.sets sets
        by_cases here : name = otherName ∧ key = other
        · obtain ⟨rfl, rfl⟩ := here
          rcases outcome with ⟨rfl, _⟩ | ⟨raised, ⟨unnamed, _⟩ | ⟨e, failed⟩⟩
          · simpa [Except.map] using Genuine.set honest named (returns.mp rfl)
          · exact absurd unnamed named
          · obtain ⟨same, chunks⟩ := mirrors.unpacked calm' (mirrors'.value name) honest.1 failed
            have left := old.congr same fun _ => chunks
            cases result with
            | ok _ => exact absurd rfl raised
            | error e => simpa [Except.map] using left
        · have beside := old.beside mirrors mirrors' within here honest.2.2
          cases result with
          | ok _ => simpa [Except.map, here] using beside
          | error e => simpa [Except.map] using beside

theorem flagged_of_overflowChunks {found : Value} {count : Nat}
    (counted : overflowChunks found = some count) : flagged overflowFlag found = true := by
  unfold overflowChunks at counted
  cases found with
  | dict items =>
      dsimp only at counted
      split at counted
      · rename_i flag _
        simp [flagged, overflowFlag, flag]
      · rename_i flag _
        simp [flagged, overflowFlag, flag]
      · cases counted
  | _ => cases counted

/-- The clean-up of a key without a manifest writes nothing. -/
theorem Steady.cleans_still (steady : s.Steady json tableFiles)
    (stocked : ∀ name, Stocked json (tableFiles name))
    (uncounted : overflowChunks (s.value json tableFiles name key) = none)
    (cleans : Cleans json s name key t) : Still s t := by
  cases cleans with
  | absent waits _ =>
      obtain ⟨calm₁, still₁⟩ := steady.calm.waits waits
      exact still₁.trans (calm₁.lookedUp name key).2
  | cleaned waits counted _ =>
      rw [(steady.waits stocked waits).oldValue stocked,
        value_congr (steady.calm.waits waits).2.newest, uncounted] at counted
      cases counted

/-- The calls of a run are clear, and the dictionary has nothing but what they have written. -/
theorem run_genuine (inverts : decoder.Inverts codec) {maxMemtableSize cacheCapacity : Nat}
    (limit : 0 < maxMemtableSize) (room : 0 < cacheCapacity)
    {calls : List (Call × Except RouterError Value)}
    (run : Run (Calls json codec decoder) (fresh maxMemtableSize cacheCapacity) calls s)
    (honest : Throughout json codec Dictionary.empty (Honest json) (calls.map Prod.fst)) :
    s.Mirrors json decoder (fun _ => File.empty)
      (afterAll json codec Dictionary.empty (calls.map Prod.fst)) ∧
      (∀ name key, Genuine json codec (afterAll json codec Dictionary.empty (calls.map Prod.fst)) name key
        (lastWrite json codec name key calls)) ∧
      ∀ before name key result rest, calls = before ++ (.get name key, result) :: rest →
        ¬ (name = "" ∨ key = "") → isChunkKey key = false →
          result = .ok (lastWrite json codec name key before).1 := by
  induction run with
  | nil =>
      refine ⟨fresh_mirrors json decoder limit room, fun name key => ?_,
        fun before name key result rest split => ?_⟩
      · exact ⟨rfl, fun _ => ⟨rfl, fun _ => rfl⟩, fun count cut => by cases cut⟩
      · simp at split
  | @snoc s t calls call _ step ih =>
      rw [List.map_append, List.map_singleton] at honest ⊢
      obtain ⟨honest, last⟩ := honest.init
      obtain ⟨mirrors, genuine, reads⟩ := ih honest
      obtain ⟨mirrors', answered⟩ := mirrors.call inverts (fun _ => empty_stocked json)
        (Honest.clear last inverts genuine) step
      rw [afterAll_append]
      refine ⟨mirrors', Genuine.call (fun _ => empty_stocked json) mirrors genuine last step mirrors',
        fun before name key result rest split named plain => ?_⟩
      rcases List.eq_nil_or_concat rest with rfl | ⟨rest, final, rfl⟩
      · obtain ⟨rfl, same⟩ := List.append_inj' split rfl
        cases same
        have answer := answered name key rfl
        rw [Dictionary.answer, if_neg named, (genuine name key).read inverts plain] at answer
        exact answer
      · rw [List.concat_eq_append, ← List.cons_append, ← List.append_assoc] at split
        obtain ⟨same, _⟩ := List.append_inj' split rfl
        exact reads before name key result rest same named plain

end

/-- As long as no value has the flag, what is taken for a manifest was written as one, a `get` gives
the value that was written last, and the clean-up of a key that is not in chunks writes nothing. -/
theorem manifests_genuine (json : Json) (codec : Codec) (decoder : Decoder)
    (inverts : decoder.Inverts codec) {maxMemtableSize cacheCapacity : Nat}
    (limit : 0 < maxMemtableSize) (room : 0 < cacheCapacity)
    {calls : List (Call × Except RouterError Value)} {s : Store}
    (run : Run (Calls json codec decoder) (fresh maxMemtableSize cacheCapacity) calls s)
    (honest : Throughout json codec Dictionary.empty (Honest json) (calls.map Prod.fst)) :
    (∀ name key found, Findable json (fun _ => File.empty) s name key found →
      flagged overflowFlag found = true → ∃ count size,
        found = manifest count size ∧ (lastWrite json codec name key calls).2 = some count) ∧
    (∀ before name key result rest, calls = before ++ (.get name key, result) :: rest →
      ¬ (name = "" ∨ key = "") → isChunkKey key = false →
        result = .ok (lastWrite json codec name key before).1) ∧
    ∀ name key t, (lastWrite json codec name key calls).2 = none →
      Cleans json s name key t → Still s t := by
  obtain ⟨mirrors, genuine, reads⟩ := run_genuine inverts limit room run honest
  have listed (name key : String) (found : Value)
      (findable : Findable json (fun _ => File.empty) s name key found)
      (flag : flagged overflowFlag found = true) : ∃ count size,
        found = manifest count size ∧ (lastWrite json codec name key calls).2 = some count := by
    have same := (mirrors.findable findable).flagged flag
    rw [same] at flag
    obtain ⟨_, count, size, cut, written⟩ := (genuine name key).cut_of_flagged flag
    exact ⟨count, size, same.trans written, cut⟩
  refine ⟨listed, reads, fun name key t uncut cleans => ?_⟩
  have none_old : overflowChunks (s.value json (fun _ => File.empty) name key) = none := by
    rw [mirrors.value]
    by_contra counted
    obtain ⟨count, counted⟩ := Option.ne_none_iff_exists'.mp counted
    have flag := flagged_of_overflowChunks counted
    rw [((genuine name key).whole uncut).1] at flag
    cases flag
  exact mirrors.steady.cleans_still (fun _ => empty_stocked json) none_old cleans

/-- A user's dict that looks like a manifest is read as `None`. -/
theorem flagged_dict_lost : ∃ s,
    Run (Calls manifestJson longCodec longDecoder) (fresh 100 10)
      [(.set "t" "k" (manifest 1 5), .ok (.bool true)), (.get "t" "k", .ok .null)] s := by
  have small : largeText manifestJson "k" (manifest 1 5) = none := by decide +kernel
  have clear : Clear manifestJson longDecoder Dictionary.empty (.set "t" "k" (manifest 1 5)) :=
    ⟨manifestJson_faithful 1 5, fun _ => ⟨by decide, small⟩, fun other i same =>
      absurd same (ne_chunkKey (by decide) other i)⟩
  obtain ⟨s, sets, mirrors⟩ := small_set (show 0 < 10 by decide) (show "t" ≠ "" by decide) small
    clear
  obtain ⟨⟨t, reads⟩, _⟩ := mirrors.reads (fun _ => empty_stocked _)
    (show ¬ ("t" = "" ∨ "k" = "") by decide)
  have lost : (Dictionary.empty.after manifestJson longCodec (.set "t" "k" (manifest 1 5))).read
      manifestJson longDecoder "t" "k" = .null := rfl
  rw [lost] at reads
  exact ⟨t, .snoc (.snoc (.nil _) (.set sets)) (.get reads)⟩

theorem string_honest : Throughout manifestJson longCodec Dictionary.empty
    (Honest manifestJson) [.set "t" "k" (.str "x"), .get "t" "k"] := by
  refine Throughout.snoc (Throughout.snoc Throughout.nil ?_) trivial
  exact ⟨manifestJson_string "x", rfl, fun other i same =>
    absurd same (ne_chunkKey (by decide) other i)⟩

/-- A string is read as it was written. -/
theorem string_genuine : ∃ s,
    Run (Calls manifestJson longCodec longDecoder) (fresh 100 10)
      [(.set "t" "k" (.str "x"), .ok (.bool true)), (.get "t" "k", .ok (.str "x"))] s ∧
    ∀ name key t, (lastWrite manifestJson longCodec name key
      [(.set "t" "k" (.str "x"), .ok (.bool true)), (.get "t" "k", .ok (.str "x"))]).2 = none →
        Cleans manifestJson s name key t → Still s t := by
  obtain ⟨s, run⟩ := string_run (show 0 < 10 by decide)
  exact ⟨s, run, (manifests_genuine manifestJson longCodec longDecoder longDecoder_inverts
    (by decide) (by decide) run string_honest).2.2⟩

end Store

end CachyDb
