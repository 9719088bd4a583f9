import CachyDb.Storage.Calls

set_option autoImplicit false

/-! Which chunks are live: those of the manifests that `set` has written, as long as no bulk write
goes over one and no large value is cut off in the middle of its chunks. -/

namespace CachyDb

open ByteString Router Transition

namespace Store

/-- In how many chunks the value was written that was written last under a key. -/
def lastCut (json : Json) (codec : Codec) (name key : String)
    (calls : List (Call × Except RouterError Value)) : Option Nat :=
  calls.foldl (fun last call =>
    match call.1 with
    | .set other otherKey value =>
        if name = other ∧ key = otherKey then cutIn json codec key value else last
    | .setMany other records =>
        if name = other ∧ key ∈ records.map Prod.fst then none else last
    | .get _ _ => last) none

/-- The keys of the call are no chunk keys. -/
def Call.Plain : Call → Prop
  | .set _ key _ => isChunkKey key = false
  | .setMany _ records => ∀ record ∈ records, isChunkKey record.1 = false
  | .get _ key => isChunkKey key = false

/-- A call of a user that succeeds. -/
def UserStep (json : Json) (codec : Codec) (decoder : Decoder) (s : Store)
    (call : Call × Except RouterError Value) (t : Store) : Prop :=
  Calls json codec decoder s call t ∧ call.1.Plain ∧ ∃ value, call.2 = .ok value

/-- A large value is written with all its chunks or with none, and a bulk write leaves the keys
alone that have chunks. -/
def Spares (json : Json) (codec : Codec) (s : Store) : Call → Prop
  | .set _ key value => ∀ text, largeText json key value = some text →
      (largeRecords codec key text).all (packs json) = true ∨
        (chunkRecords codec key (cutChunks (codec.compress text))).takeWhile (packs json) = []
  | .setMany name records => ∀ record ∈ records, ∀ i, s.stored name (chunkKey record.1 i) = .null
  | .get _ _ => True

/-- The live chunks of a key are those that its manifest counts. -/
structure Tidy (s : Store) (name key : String) (cut : Option Nat) : Prop where
  plain : cut ≠ none → isChunkKey key = false
  listed : ∀ count, cut = some count → ∃ size, s.stored name key = manifest count size
  live : ∀ i, s.stored name (chunkKey key i) ≠ .null ↔ ∃ count, cut = some count ∧ i < count

section

variable {json : Json} {codec : Codec} {decoder : Decoder} {s t : Store} {name key other : String}
  {value : Value} {cut : Option Nat} {records puts : List (String × Value)}

/-- A key under which something is live is short enough for a tombstone. -/
theorem Calm.packs_live {tableFiles : String → File} (calm : s.Calm json tableFiles)
    (live : s.stored name key ≠ .null) : packs json (key, .null) = true := by
  by_contra long
  have failed : ∃ e, packRecord json key .null = .error e := by
    cases packing : packRecord json key .null with
    | ok packed => exact absurd (packs_iff.mpr ⟨packed, packing⟩) long
    | error e => exact ⟨e, rfl⟩
  obtain ⟨e, failed⟩ := failed
  exact live (calm.unwritten json.faithful_null failed)

/-- The clean-up leaves no chunk. -/
theorem Tidy.cleaned {tableFiles : String → File} (tidy : s.Tidy name key cut)
    (calm : s.Calm json tableFiles) (i : Nat) :
    (lastOf (cleanWrites json (s.stored name key) key) (chunkKey key i)).getD
      (s.stored name (chunkKey key i)) = .null := by
  cases written : lastOf (cleanWrites json (s.stored name key) key) (chunkKey key i) with
  | some value =>
      have member := mem_of_lastOf written
      unfold cleanWrites at member
      split at member
      · cases member
      · obtain ⟨j, _, same⟩ := List.mem_map.mp ((List.takeWhile_sublist _).subset member)
        exact (Prod.mk.inj same).2.symm
  | none =>
      by_contra live
      obtain ⟨count, rfl, inside⟩ := (tidy.live i).mp live
      obtain ⟨size, listed⟩ := tidy.listed count rfl
      have all : ∀ record ∈ tombstones key count, packs json record = true := by
        intro record member
        obtain ⟨j, below, rfl⟩ := List.mem_map.mp member
        exact calm.packs_live ((tidy.live j).mpr ⟨count, rfl, List.mem_range.mp below⟩)
      rw [cleanWrites, listed, overflowChunks_manifest] at written
      dsimp only at written
      rw [List.takeWhile_eq_self_iff.mpr all] at written
      apply lastOf_none.mp written
      exact List.mem_map.mpr ⟨(chunkKey key i, .null), List.mem_map.mpr
        ⟨i, List.mem_range.mpr inside, rfl⟩, rfl⟩

theorem Tidy.unlisted (dead : ∀ i, t.stored name (chunkKey key i) = .null) : t.Tidy name key none := by
  refine ⟨fun cut => absurd rfl cut, fun count listed => ?_, fun i => ?_⟩
  · cases listed
  · simp [dead i]

theorem lastOf_plain (plain : isChunkKey key = false) (value : Value) (i : Nat) :
    lastOf ([(key, value)].takeWhile (packs json)) (chunkKey key i) = none := by
  rw [lastOf_none]
  intro member
  obtain ⟨record, there, same⟩ := List.mem_map.mp member
  have here := (List.takeWhile_sublist _).subset there
  rw [List.mem_singleton.mp here] at same
  exact ne_chunkKey plain key i same

/-- A call of `set` leaves the chunks that it has written. -/
theorem Tidy.sets (tidy : s.Tidy name key cut) (steady : s.Steady json fun _ => File.empty)
    (plain : isChunkKey key = false) (spares : Spares json codec s (.set name key value))
    (sets : Sets json codec s name key value (.ok ()) t) :
    t.Tidy name key (cutIn json codec key value) := by
  have stocked (_ : String) : Stocked json File.empty := empty_stocked json
  have named : ¬ (name = "" ∨ key = "") := by
    cases sets <;> assumption
  obtain ⟨_, wrote, _⟩ := steady.sets_wrote stocked named sets
  rw [value_stored firstIndex_empty] at wrote
  have cleaned := tidy.cleaned steady.calm
  have chunk (i : Nat) := wrote.stored name (chunkKey key i)
  simp only [if_pos] at chunk
  cases large : largeText json key value with
  | none =>
      rw [cutIn, large]
      refine Tidy.unlisted fun i => ?_
      simp only [setWrites, large, plain] at chunk
      rw [chunk, lastOf_append, lastOf_plain plain, Option.none_or]
      exact cleaned i
  | some text =>
      rw [cutIn, large]
      dsimp only
      by_cases all : (largeRecords codec key text).all (packs json) = true
      · rw [if_pos all]
        simp only [setWrites, large, if_pos all] at chunk wrote
        have manifested : t.stored name key =
            manifest (cutChunks (codec.compress text)).length text.length := by
          rw [wrote.stored, if_pos rfl, lastOf_append, largeRecords, lastOf_append]
          simp [lastOf]
        refine ⟨fun _ => plain, fun count same => ?_, fun i => ?_⟩
        · cases same
          exact ⟨_, manifested⟩
        · have other : lastOf [(key, manifest (cutChunks (codec.compress text)).length text.length)]
              (chunkKey key i) = none := by
            simp [lastOf, ne_chunkKey plain key i]
          rw [chunk, lastOf_append, largeRecords, lastOf_append, other, Option.none_or,
            lastOf_chunkRecords]
          by_cases inside : i < (cutChunks (codec.compress text)).length
          · simp [inside]
          · rw [List.getElem?_eq_none (Nat.not_lt.mp inside), Option.map_none, Option.none_or, cleaned i]
            simp [inside]
      · rw [if_neg all]
        refine Tidy.unlisted fun i => ?_
        have nothing : (largeRecords codec key text).takeWhile (packs json) = [] := by
          have chunks := (spares text large).resolve_left all
          have length : (chunkRecords codec key (cutChunks (codec.compress text))).length ≠ 0 := by
            obtain ⟨first, rest, cut⟩ := cutChunks_ne_nil (codec.compress_ne_nil text)
            simp [chunkRecords, cut]
          rw [largeRecords, List.takeWhile_append, chunks, if_neg]
          simpa using length.symm
        simp only [setWrites, large, if_neg all, nothing, List.nil_append] at chunk
        rw [chunk, lastOf_append, lastOf_plain plain, Option.none_or]
        exact cleaned i

/-- What is written elsewhere leaves a key and its chunks. -/
theorem Tidy.elsewhere {otherName : String} {keys : Set String} (tidy : s.Tidy otherName other cut)
    (within : Within s t name keys) (outside : cut ≠ none → ¬ (otherName = name ∧ other ∈ keys))
    (apart : ∀ i, ¬ (otherName = name ∧ chunkKey other i ∈ keys)) : t.Tidy otherName other cut := by
  refine ⟨tidy.plain, fun count listed => ?_, fun i => ?_⟩
  · have some_cut : cut ≠ none := by
      rw [listed]
      exact Option.some_ne_none count
    rw [within.stored (outside some_cut)]
    exact tidy.listed count listed
  · rw [within.stored (apart i)]
    exact tidy.live i

/-- One call of a user. -/
theorem Steady.user_step {call : Call × Except RouterError Value}
    {calls : List (Call × Except RouterError Value)} (steady : s.Steady json fun _ => File.empty)
    (tidy : ∀ name key, s.Tidy name key (lastCut json codec name key calls))
    (step : UserStep json codec decoder s call t) (spares : Spares json codec s call.1) :
    t.Steady json (fun _ => File.empty) ∧
      ∀ name key, t.Tidy name key (lastCut json codec name key (calls ++ [call])) := by
  have stocked (_ : String) : Stocked json File.empty := empty_stocked json
  obtain ⟨performed, plain, answer, ok⟩ := step
  cases performed with
  | @set name key value result _ sets =>
      refine ⟨steady.sets stocked sets, fun otherName other => ?_⟩
      obtain rfl : result = .ok () := by
        cases result with
        | ok done => rfl
        | error e => cases ok
      obtain ⟨_, within, _⟩ := steady.calm.sets sets
      rw [lastCut, List.foldl_append, ← lastCut]
      dsimp only [List.foldl]
      split
      · rename_i here
        obtain ⟨rfl, rfl⟩ := here
        exact (tidy otherName other).sets steady plain spares sets
      · rename_i elsewhere
        refine (tidy otherName other).elsewhere within (fun some_cut => ?_) fun i => ?_
        · rintro ⟨rfl, rfl | ⟨_, j, rfl⟩⟩
          · exact elsewhere ⟨rfl, rfl⟩
          · have chunk := (tidy otherName (chunkKey key j)).plain some_cut
            rw [isChunkKey_chunkKey] at chunk
            cases chunk
        · rintro ⟨rfl, same | ⟨_, j, same⟩⟩
          · exact ne_chunkKey plain other i same.symm
          · exact elsewhere ⟨rfl, (chunkKey_injective same).1⟩
  | @setMany name records result _ distinct sets =>
      obtain ⟨calm', passes, within, _⟩ := steady.calm.setsMany distinct sets
      refine ⟨steady.passes stocked passes calm', fun otherName other => ?_⟩
      have apart (i : Nat) : ¬ (otherName = name ∧
          chunkKey other i ∈ {key | key ∈ records.map Prod.fst}) := by
        rintro ⟨_, member⟩
        obtain ⟨record, there, same⟩ := List.mem_map.mp member
        exact ne_chunkKey (plain record there) other i same
      rw [lastCut, List.foldl_append, ← lastCut]
      dsimp only [List.foldl]
      split
      · rename_i here
        obtain ⟨rfl, member⟩ := here
        obtain ⟨record, there, rfl⟩ := List.mem_map.mp member
        refine Tidy.unlisted fun i => ?_
        rw [within.stored (apart i)]
        exact spares record there i
      · rename_i elsewhere
        exact (tidy otherName other).elsewhere within (fun _ => elsewhere) apart
  | @get name key result _ reads =>
      have straight : isChunkKey key = true → ∀ found,
          Findable json (fun _ => File.empty) s name key found → flagged overflowFlag found = false := by
        intro chunk
        rw [plain] at chunk
        cases chunk
      obtain ⟨steady', newest, _⟩ := steady.reads_kept stocked straight reads
      refine ⟨steady', fun otherName other => ?_⟩
      have same (key : String) : t.stored otherName key = s.stored otherName key := by
        rw [stored, stored, ← Store.newest, ← Store.newest, newest]
      rw [lastCut, List.foldl_append, ← lastCut]
      refine ⟨(tidy otherName other).plain, fun count listed => ?_, fun i => ?_⟩
      · rw [same]
        exact (tidy otherName other).listed count listed
      · rw [same]
        exact (tidy otherName other).live i

end

/-- In every run of calls that spare the chunks of other values, the live chunks are those that
belong to a manifest written by `set`. What was stored last is what a lookup finds. -/
theorem chunks_live_iff (json : Json) (codec : Codec) (decoder : Decoder)
    {maxMemtableSize cacheCapacity : Nat} (limit : 0 < maxMemtableSize) (room : 0 < cacheCapacity)
    {calls : List (Call × Except RouterError Value)} {s : Store}
    (run : Run (Guarded (UserStep json codec decoder) fun s call => Spares json codec s call.1)
      (fresh maxMemtableSize cacheCapacity) calls s) (name key : String) (i : Nat) :
    (s.stored name (chunkKey key i) ≠ .null ↔ ∃ count size,
      lastCut json codec name key calls = some count ∧ s.stored name key = manifest count size ∧
        i < count) ∧
      ∀ other, (s.router.getLocked json name other).1 = .ok (s.stored name other) := by
  have whole : s.Steady json (fun _ => File.empty) ∧
      ∀ name key, s.Tidy name key (lastCut json codec name key calls) := by
    induction run with
    | nil =>
        refine ⟨fresh_steady json limit room, fun name key => Tidy.unlisted fun i => ?_⟩
        rfl
    | snoc _ step ih => exact ih.1.user_step ih.2 step.1 step.2
  have tidy := whole.2 name key
  rw [tidy.live i]
  refine ⟨⟨?_, ?_⟩, fun other => ?_⟩
  · rintro ⟨count, cut, inside⟩
    obtain ⟨size, listed⟩ := tidy.listed count cut
    exact ⟨count, size, cut, listed, inside⟩
  · rintro ⟨count, _, cut, _, inside⟩
    exact ⟨count, cut, inside⟩
  · rw [whole.1.regular.answer (fun _ => empty_stocked json), value_stored firstIndex_empty]

theorem user_long : ∃ s, UserStep manifestJson longCodec longDecoder (fresh 100 10)
      (.set "t" "k" longValue, .ok (.bool true)) s ∧
    s.Steady manifestJson (fun _ => File.empty) ∧ s.Roomy 90 ∧
    s.Chunked longCodec "t" "k" longText := by
  obtain ⟨s, sets, steady, roomy, chunked⟩ := sets_long
  have plain : isChunkKey "k" = false := by decide
  exact ⟨s, ⟨.set sets, plain, _, rfl⟩, steady, roomy, chunked⟩

/-- The key holds a string, and the chunk of the large value is still there. -/
theorem set_many_leaves_chunk : ∃ s,
    Run (UserStep manifestJson longCodec longDecoder) (fresh 100 10)
      [(.set "t" "k" longValue, .ok (.bool true)), (.setMany "t" [("k", .str "x")], .ok (.bool true))]
      s ∧
    s.stored "t" (chunkKey "k" 0) ≠ .null ∧ ∀ count size, s.stored "t" "k" ≠ manifest count size := by
  obtain ⟨s, first, steady, roomy, chunked⟩ := user_long
  have room : s.Roomy (([("k", Value.str "x")] : List (String × Value)).length + 89) := roomy
  have nonempty : ¬ ("t" = "" ∨ [("k", Value.str "x")] = []) := by simp
  obtain ⟨t, sets, _⟩ := steady.setsMany_ends (fun _ => empty_stocked _) nonempty (by simp) room
    (by simp) (by simp [manifestJson_string]) (by
      intro record member
      rw [List.mem_singleton.mp member]
      exact packs_of_short (by decide) (manifestJson_string "x"))
  have second : UserStep manifestJson longCodec longDecoder s
      (.setMany "t" [("k", .str "x")], .ok (.bool true)) t := by
    refine ⟨.setMany (by simp) sets, ?_, _, rfl⟩
    intro record member
    rw [List.mem_singleton.mp member]
    decide
  obtain ⟨_, _, within, ⟨_, _, _, fixed⟩ | ⟨failed, _⟩⟩ := steady.calm.setsMany (by simp) sets
  · refine ⟨t, .snoc (.snoc (.nil _) first) second, ?_, fun count size => ?_⟩
    · obtain ⟨bytes, rest, cut⟩ := cutChunks_ne_nil (longCodec.compress_ne_nil longText)
      have apart : chunkKey "k" 0 ≠ "k" := ne_chunkKey_self "k" 0
      rw [within.stored (by simp [apart]),
        (chunked.chunks 0 bytes (by rw [cut]; rfl)).stored]
      exact fun same => by cases same
    · rw [(fixed ("k", .str "x") List.mem_cons_self).stored]
      exact fun same => by cases same
  · exact absurd rfl failed

/-- A large value on an empty router. -/
theorem long_chunks_live : ∃ s,
    UserStep manifestJson longCodec longDecoder (fresh 100 10)
      (.set "t" "k" longValue, .ok (.bool true)) s ∧
    ∀ name key i, (s.stored name (chunkKey key i) ≠ .null ↔ ∃ count size,
      lastCut manifestJson longCodec name key [(.set "t" "k" longValue, .ok (.bool true))] = some count ∧
        s.stored name key = manifest count size ∧ i < count) ∧
      ∀ other, (s.router.getLocked manifestJson name other).1 = .ok (s.stored name other) := by
  obtain ⟨s, first, _⟩ := user_long
  have spares : Spares manifestJson longCodec (fresh 100 10) (.set "t" "k" longValue) := by
    intro text large
    rw [long_large, Option.some.injEq] at large
    rw [← large]
    exact Or.inl (List.all_eq_true.mpr long_packed)
  exact ⟨s, first, chunks_live_iff manifestJson longCodec longDecoder (by decide) (by decide)
    (.snoc (.nil _) ⟨first, spares⟩)⟩

end Store

end CachyDb
