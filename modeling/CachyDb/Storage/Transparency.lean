import CachyDb.Storage.Dictionary

set_option autoImplicit false

/-! Two runs of the same calls on caches of different capacities. -/

namespace CachyDb

open ByteString Router Transition

namespace Store

/-- Runs of such calls give the same results from every `get`, whatever the capacities of their
caches. What a cache has reads as what is held below it. -/
theorem cache_transparent (json : Json) (codec : Codec) (decoder : Decoder)
    (inverts : decoder.Inverts codec) {maxMemtableSize capacity otherCapacity : Nat}
    (limit : 0 < maxMemtableSize) (room : 0 < capacity) (otherRoom : 0 < otherCapacity)
    {calls others : List (Call × Except RouterError Value)} {s t : Store}
    (run : Run (Calls json codec decoder) (fresh maxMemtableSize capacity) calls s)
    (other : Run (Calls json codec decoder) (fresh maxMemtableSize otherCapacity) others t)
    (same : calls.map Prod.fst = others.map Prod.fst)
    (clear : Dictionary.Throughout json codec Dictionary.empty (Dictionary.Clear json decoder)
      (calls.map Prod.fst)) :
    (∀ (i : Nat) (name key : String) (result otherResult : Except RouterError Value),
      calls[i]? = some (.get name key, result) → others[i]? = some (.get name key, otherResult) →
        result = otherResult) ∧
      ∀ name key held, s.cached name key = some held →
        reading json decoder (fun i => s.stored name (chunkKey key i)) held =
          reading json decoder (fun i => s.stored name (chunkKey key i)) (s.stored name key) := by
  obtain ⟨mirrors, answers⟩ := (fresh_mirrors json decoder limit room).run inverts
    (fun _ => empty_stocked json) run clear
  obtain ⟨_, otherAnswers⟩ := (fresh_mirrors json decoder limit otherRoom).run inverts
    (fun _ => empty_stocked json) other (same ▸ clear)
  constructor
  · intro i name key result otherResult here there
    obtain ⟨inside, found⟩ := List.getElem?_eq_some_iff.mp here
    obtain ⟨otherInside, otherFound⟩ := List.getElem?_eq_some_iff.mp there
    have split : calls = calls.take i ++ (.get name key, result) :: calls.drop (i + 1) := by
      rw [← found, List.getElem_cons_drop, List.take_append_drop]
    have otherSplit : others = others.take i ++ (.get name key, otherResult) :: others.drop (i + 1) := by
      rw [← otherFound, List.getElem_cons_drop, List.take_append_drop]
    have prefixes : (calls.take i).map Prod.fst = (others.take i).map Prod.fst := by
      rw [List.map_take, same, List.map_take]
    rw [answers _ name key result _ split, otherAnswers _ name key otherResult _ otherSplit, prefixes]
  · intro name key held known
    have stored (key : String) : s.stored name key =
        Dictionary.afterAll json codec Dictionary.empty (calls.map Prod.fst) name key := by
      rw [← mirrors.value, value_stored firstIndex_empty]
    simp only [stored]
    exact (mirrors.cached name key held known).read

end Store

theorem decodeKey_listed (s : String) :
    decodeKey (encodeKey s ++ [0x22, 0x5D]).dropLast.dropLast = some s := by
  have back : encodeKey s ++ [0x22, 0x5D] = (encodeKey s ++ [0x22]) ++ [0x5D] := by simp
  rw [back, List.dropLast_concat, List.dropLast_concat, decodeKey_encodeKey]

/-- JSON as far as the example needs it: also tuples and lists of one string. -/
def tupleJson : Json where
  dumps
    | .list [.str s] => some (0x5B :: 0x22 :: encodeKey s ++ [0x22, 0x5D])
    | .tuple [.str s] => some (0x5B :: 0x22 :: encodeKey s ++ [0x22, 0x5D])
    | value => manifestJson.dumps value
  loads
    | 0x5B :: 0x22 :: rest => (decodeKey rest.dropLast.dropLast).map fun s => .list [.str s]
    | text => manifestJson.loads text
  dumps_null := rfl
  dumps_str _ := rfl
  loads_null := rfl
  loads_dumps := by
    intro value text written
    split at written
    · cases written
      exact ⟨_, Option.map_eq_some_iff.mpr ⟨_, decodeKey_listed _, rfl⟩⟩
    · cases written
      exact ⟨_, Option.map_eq_some_iff.mpr ⟨_, decodeKey_listed _, rfl⟩⟩
    · obtain ⟨read, loads⟩ := manifestJson.loads_dumps value text written
      split
      · simp [manifestJson, loadText, nullBytes] at loads
      · exact ⟨read, loads⟩
  loads_nil := rfl

def tupleValue : Value := .tuple [.str (String.ofList (List.replicate 2001 'x'))]

def listValue : Value := .list [.str (String.ofList (List.replicate 2001 'x'))]

def tupleText : Bytes := 0x5B :: 0x22 :: (List.replicate 2001 0x78 ++ [0x22, 0x5D])

/-- What zlib makes of the text, and base64 of that. -/
def tupleCompressed : Bytes := [120, 156, 139, 86, 170, 24, 5, 163, 96, 20, 140, 130, 81, 48, 10, 70,
  193, 208, 7, 74, 177, 0, 161, 142, 171, 34]

def tupleEncoded : String := "eJyLVqoYBaNgFIyCUTAKRsHQB0qxAKGOqyI="

/-- zlib and base64 as far as the example needs them. -/
def tupleCodec : Codec where
  compress bytes := if bytes = tupleText then tupleCompressed else 0 :: bytes
  b64encode bytes := if bytes = tupleCompressed then tupleEncoded else ""
  compress_ne_nil bytes := by split <;> simp [tupleCompressed]

def tupleDecoder : Decoder where
  decompress bytes := if bytes = tupleCompressed then some tupleText else none
  b64decode text := if text = tupleEncoded then some tupleCompressed else none

theorem tupleJson_string (s : String) : tupleJson.Faithful (.str s) := by
  obtain ⟨text, written, loads⟩ := manifestJson_string s
  cases written
  exact ⟨_, rfl, loads⟩

theorem tupleJson_manifest (numChunks originalSize : Nat) :
    tupleJson.Faithful (manifest numChunks originalSize) := by
  have other : ∀ (rest : Bytes), tupleJson.loads (0x7B :: rest) = loadText (0x7B :: rest) :=
    fun rest => rfl
  refine ⟨manifestBytes numChunks originalSize, rfl, ?_⟩
  have loads := loadText_manifest numChunks originalSize
  obtain ⟨rest, starts⟩ := manifestBytes_brace numChunks originalSize
  rw [starts, other, ← starts]
  exact loads

theorem tupleJson_listed (s : String) :
    tupleJson.loads (0x5B :: 0x22 :: (encodeKey s ++ [0x22, 0x5D])) = some (.list [.str s]) :=
  Option.map_eq_some_iff.mpr ⟨_, decodeKey_listed s, rfl⟩

set_option maxRecDepth 100000 in
theorem tuple_cut : cutChunks (tupleCodec.compress tupleText) = [tupleCompressed] := rfl

theorem tuple_encoded : tupleCodec.b64encode tupleCompressed = tupleEncoded := rfl

set_option maxRecDepth 100000 in
theorem tupleJson_loads : tupleJson.loads tupleText = some listValue := by
  have text : tupleText = 0x5B :: 0x22 ::
      (encodeKey (String.ofList (List.replicate 2001 'x')) ++ [0x22, 0x5D]) := by decide +kernel
  rw [text, tupleJson_listed, listValue]

namespace Store

def isHit (found : Except RouterError (Option Value)) : Bool :=
  match found with
  | .ok (some _) => true
  | _ => false

set_option maxRecDepth 100000 in
/-- The large tuple and another value, on a cache of one entry and on one of two. -/
theorem tuple_outcome : ∀ capacity ∈ [1, 2],
    ((((fresh 100 capacity).lookedUp tupleJson "t" "k").perform tupleJson
      (.set 0 "t" (chunkKey "k" 0) (.str tupleEncoded))).bind fun s₂ =>
        (s₂.perform tupleJson (.set 0 "t" "k" (manifest 1 2005))).bind fun s₃ =>
          (((s₃.recalled "t" "k" tupleValue).lookedUp tupleJson "t" "o").perform tupleJson
            (.set 0 "t" "o" (.str "x"))).map fun s₄ =>
              (s₂.isIdle, s₃.isIdle, s₄.isIdle, (s₄.cached "t" "k").isSome,
                isHit (s₄.router.getCached "t" "k").1)) =
      some (true, true, true, decide (capacity = 2), decide (capacity = 2)) := by
  decide +kernel

set_option maxRecDepth 100000 in
/-- The two calls, and what is cached under the key of the tuple. -/
theorem tuple_run {capacity : Nat} (member : capacity ∈ [1, 2]) : ∃ s,
    Run (Calls tupleJson tupleCodec tupleDecoder) (fresh 100 capacity)
      [(.set "t" "k" tupleValue, .ok (.bool true)), (.set "t" "o" (.str "x"), .ok (.bool true))] s ∧
    s.Steady tupleJson (fun _ => File.empty) ∧ s.Chunked tupleCodec "t" "k" tupleText ∧
    (∀ held, s.cached "t" "k" = some held → held = tupleValue) ∧
    (s.cached "t" "k").isSome = decide (capacity = 2) ∧
    isHit (s.router.getCached "t" "k").1 = decide (capacity = 2) := by
  have stocked (_ : String) : Stocked tupleJson File.empty := empty_stocked tupleJson
  have room : 0 < capacity := by
    rcases List.mem_cons.mp member with rfl | member
    · decide
    · rw [List.mem_singleton.mp member]
      decide
  have large : largeText tupleJson "k" tupleValue = some tupleText := rfl
  have small : largeText tupleJson "o" (.str "x") = none := by decide
  have size : tupleText.length = 2005 := rfl
  obtain ⟨s₂, chunked, outcome⟩ := Option.bind_eq_some_iff.mp (tuple_outcome capacity member)
  obtain ⟨s₃, listed, outcome⟩ := Option.bind_eq_some_iff.mp outcome
  obtain ⟨s₄, last, outcome⟩ := Option.map_eq_some_iff.mp outcome
  simp only [Prod.mk.injEq] at outcome
  obtain ⟨idle₂, idle₃, idle₄, known, hit⟩ := outcome
  have steady := fresh_steady tupleJson (show 0 < 100 by decide) room
  have unset (key : String) {u : Store} (empty : u.value tupleJson (fun _ => File.empty) "t" key = .null)
      (steady : u.Steady tupleJson fun _ => File.empty) :
      overflowChunks (u.router.getRawManifest tupleJson "t" key).1 = none := by
    rw [steady.oldValue stocked, empty]
    rfl
  have steady₁ := steady.lookedUp stocked "t" "k"
  have chunks : SetsEach tupleJson "t" ((fresh 100 capacity).lookedUp tupleJson "t" "k")
      (chunkRecords tupleCodec "k" (cutChunks (tupleCodec.compress tupleText))) (.ok ()) s₂ := by
    rw [tuple_cut]
    show SetsEach tupleJson "t" _ [(chunkKey "k" 0, .str (tupleCodec.b64encode tupleCompressed))] _ _
    rw [tuple_encoded]
    exact .next (steady₁.calm.setsInternal_ends (tupleJson_string tupleEncoded) chunked
      ((isIdle_iff s₂).mp idle₂)) (.nil s₂)
  have calm₂ := (steady₁.calm.setsEach chunks).1
  have manifest : SetsInternal tupleJson s₂ "t" "k"
      (Router.manifest (cutChunks (tupleCodec.compress tupleText)).length tupleText.length)
      (.ok ()) s₃ := by
    rw [tuple_cut, size]
    exact calm₂.setsInternal_ends (tupleJson_manifest 1 2005) listed ((isIdle_iff s₃).mp idle₃)
  have calm₃ := (calm₂.setsInternal manifest).1
  have writes : WritesLarge tupleJson tupleCodec _ "t" "k" tupleValue tupleText _ _ :=
    .written chunks manifest ⟨[], Run.nil s₃⟩
  rw [(recalled_alike calm₃.sound.cache "t" "k" tupleValue).1] at writes
  have sets : Sets tupleJson tupleCodec (fresh 100 capacity) "t" "k" tupleValue (.ok ())
      (s₃.recalled "t" "k" tupleValue) :=
    .large (by decide) large (.absent ⟨[], Run.nil _⟩ (unset "k" (fresh_value _ _ _ _ _) steady)) writes
  have steady₄ := steady.sets stocked sets
  obtain ⟨_, within, _⟩ := steady.calm.sets sets
  have apart : "o" ∉ touched "k" := by
    rintro (same | ⟨_, i, same⟩)
    · exact absurd same (by decide)
    · exact ne_chunkKey (by decide) "k" i same
  have value : (s₃.recalled "t" "k" tupleValue).value tupleJson (fun _ => File.empty) "t" "o" = .null := by
    rw [value_stored firstIndex_empty, within.stored fun inside => apart inside.2]
    rfl
  have steady₅ := steady₄.lookedUp stocked "t" "o"
  have single := steady₅.calm.setsInternal_ends (tupleJson_string "x") last ((isIdle_iff s₄).mp idle₄)
  have sets' : Sets tupleJson tupleCodec (s₃.recalled "t" "k" tupleValue) "t" "o" (.str "x") (.ok ()) s₄ :=
    .small (by decide) small (by decide) (.absent ⟨[], Run.nil _⟩ (unset "o" value steady₄)) single
  have whole := (steady₁.calm.writesLarge (by decide) writes).2.2 rfl
  obtain ⟨_, within', _⟩ := steady₄.calm.sets sets'
  have outside : "k" ∉ touched "o" := by
    rintro (same | ⟨_, i, same⟩)
    · exact absurd same (by decide)
    · exact ne_chunkKey (by decide) "o" i same
  refine ⟨s₄, .snoc (.snoc (.nil _) (.set sets)) (.set sets'), steady₄.sets stocked sets', ?_, ?_, known,
    hit⟩
  · refine whole.1.within within' (fun inside => outside inside.2) fun i inside => ?_
    rcases inside.2 with same | ⟨_, j, same⟩
    · exact ne_chunkKey (by decide) "k" i same.symm
    · exact absurd (chunkKey_injective same).1 (by decide)
  · intro held there
    exact whole.2.2 held (within'.cached "t" "k" held (fun inside => outside inside.2) there)

/-- The tuple comes back as a list where its entry has been evicted. -/
theorem tuple_reads_differ : ∃ s t,
    Run (Calls tupleJson tupleCodec tupleDecoder) (fresh 100 1)
      [(.set "t" "k" tupleValue, .ok (.bool true)), (.set "t" "o" (.str "x"), .ok (.bool true)),
        (.get "t" "k", .ok listValue)] s ∧
    Run (Calls tupleJson tupleCodec tupleDecoder) (fresh 100 2)
      [(.set "t" "k" tupleValue, .ok (.bool true)), (.set "t" "o" (.str "x"), .ok (.bool true)),
        (.get "t" "k", .ok tupleValue)] t := by
  obtain ⟨s, run, steady, chunked, _, missing, _⟩ := tuple_run (show 1 ∈ [1, 2] by decide)
  obtain ⟨t, run', steady', _, held, _, hit⟩ := tuple_run (show 2 ∈ [1, 2] by decide)
  have reads : ∃ u, Reads tupleJson tupleDecoder s "t" "k" (.ok listValue) u := by
    have chunk := chunked.chunks 0 tupleCompressed (by rw [tuple_cut]; rfl)
    have count : (cutChunks (tupleCodec.compress tupleText)).length = 1 := by rw [tuple_cut]; rfl
    have caches : s.Caches "t" "k" {s.value tupleJson (fun _ => File.empty) "t" "k"} := by
      intro held known
      rw [known] at missing
      cases missing
    have manifest : s.value tupleJson (fun _ => File.empty) "t" "k" =
        Router.manifest 1 tupleText.length := by
      rw [value_of_newest chunked.manifest, count]
    refine (steady.reads (fun _ => empty_stocked tupleJson) (by decide) caches rfl ?_ ?_).1
    · rintro found rfl _ counted same i inside
      rw [manifest, overflowChunks_manifest, Option.some.injEq] at same
      obtain rfl : i = 0 := by omega
      exact chunk.shows
    · rintro found rfl
      have first : decodeChunk tupleDecoder (s.value tupleJson (fun _ => File.empty) "t" (chunkKey "k" 0)) =
          some tupleCompressed := by
        rw [chunk.value, tuple_encoded]
        rfl
      rw [manifest, reading, if_pos (flagged_manifest _ _).1, overflowChunks_manifest]
      dsimp only
      have collected : ((List.range 1).mapM fun i => decodeChunk tupleDecoder
          (s.value tupleJson (fun _ => File.empty) "t" (chunkKey "k" i))) = some [tupleCompressed] := by
        rw [List.range_one, List.mapM_cons, first]
        rfl
      have decompressed : tupleDecoder.decompress [tupleCompressed].flatten = some tupleText := by
        rfl
      rw [collected, joined, Option.bind_some, assemble, if_pos (flagged_manifest _ _).2, decompressed,
        Option.bind_some, tupleJson_loads]
      rfl
  have reads' : ∃ u, Reads tupleJson tupleDecoder t "t" "k" (.ok tupleValue) u := by
    rcases getCached_answer steady'.regular.sound.cache "t" "k" with missed | ⟨value, known, found⟩
    · rw [missed] at hit
      cases hit
    · rw [held value known] at found
      exact ⟨_, .plain (by decide) (.hit found) rfl⟩
  obtain ⟨u, reads⟩ := reads
  obtain ⟨v, reads'⟩ := reads'
  exact ⟨u, v, .snoc run (.get reads), .snoc run' (.get reads')⟩

set_option maxRecDepth 100000 in
/-- Two strings, on a cache of one entry and on one of two. -/
theorem strings_outcome : ∀ capacity ∈ [1, 2],
    ((((fresh 100 capacity).lookedUp manifestJson "t" "k").perform manifestJson
      (.set 0 "t" "k" (.str "x"))).bind fun s₂ =>
        ((s₂.lookedUp manifestJson "t" "o").perform manifestJson (.set 0 "t" "o" (.str "y"))).map
          fun s₃ => (s₂.isIdle, s₃.isIdle, (s₃.cached "t" "k").isSome)) =
      some (true, true, decide (capacity = 2)) := by
  decide +kernel

theorem strings_clear : Dictionary.Throughout manifestJson longCodec Dictionary.empty
    (Dictionary.Clear manifestJson longDecoder)
    [.set "t" "k" (.str "x"), .set "t" "o" (.str "y"), .get "t" "k"] := by
  refine .snoc (.snoc (.snoc .nil ?_) ?_) fun flag => (by cases flag)
  · exact ⟨manifestJson_string "x", fun flag => (by cases flag), fun other i same =>
      absurd same (ne_chunkKey (by decide) other i)⟩
  · exact ⟨manifestJson_string "y", fun flag => (by cases flag), fun other i same =>
      absurd same (ne_chunkKey (by decide) other i)⟩

/-- The first string is read after the second has been written, evicted or not. -/
theorem strings_run {capacity : Nat} (member : capacity ∈ [1, 2]) : ∃ s t,
    Run (Calls manifestJson longCodec longDecoder) (fresh 100 capacity)
      [(.set "t" "k" (.str "x"), .ok (.bool true)), (.set "t" "o" (.str "y"), .ok (.bool true))] s ∧
    (s.cached "t" "k").isSome = decide (capacity = 2) ∧
    Run (Calls manifestJson longCodec longDecoder) (fresh 100 capacity)
      [(.set "t" "k" (.str "x"), .ok (.bool true)), (.set "t" "o" (.str "y"), .ok (.bool true)),
        (.get "t" "k", .ok (.str "x"))] t := by
  have stocked (_ : String) : Stocked manifestJson File.empty := empty_stocked manifestJson
  have room : 0 < capacity := by
    rcases List.mem_cons.mp member with rfl | member
    · decide
    · rw [List.mem_singleton.mp member]
      decide
  obtain ⟨s₂, first, outcome⟩ := Option.bind_eq_some_iff.mp (strings_outcome capacity member)
  obtain ⟨s₃, second, outcome⟩ := Option.map_eq_some_iff.mp outcome
  simp only [Prod.mk.injEq] at outcome
  obtain ⟨idle₂, idle₃, known⟩ := outcome
  have start := fresh_mirrors manifestJson longDecoder (show 0 < 100 by decide) room
  have absent {u : Store} {key : String} (steady : u.Steady manifestJson fun _ => File.empty)
      (empty : u.value manifestJson (fun _ => File.empty) "t" key = .null) :
      Cleans manifestJson u "t" key (u.lookedUp manifestJson "t" key) := by
    refine .absent ⟨[], Run.nil _⟩ ?_
    rw [steady.oldValue stocked, empty]
    rfl
  have sets : Sets manifestJson longCodec (fresh 100 capacity) "t" "k" (.str "x") (.ok ()) s₂ :=
    .small (by decide) (by decide) (by decide)
      (absent start.steady (fresh_value _ _ _ _ _))
      ((start.steady.lookedUp stocked "t" "k").calm.setsInternal_ends (manifestJson_string "x")
        first ((isIdle_iff s₂).mp idle₂))
  have written : Run (Calls manifestJson longCodec longDecoder) (fresh 100 capacity)
      [(.set "t" "k" (.str "x"), .ok (.bool true))] s₂ := .snoc (.nil _) (.set sets)
  have between := (start.run longDecoder_inverts stocked written strings_clear.init.1.init.1).1
  have sets' : Sets manifestJson longCodec s₂ "t" "o" (.str "y") (.ok ()) s₃ :=
    .small (by decide) (by decide) (by decide)
      (absent between.steady (between.value "t" "o"))
      ((between.steady.lookedUp stocked "t" "o").calm.setsInternal_ends (manifestJson_string "y")
        second ((isIdle_iff s₃).mp idle₃))
  have run := written.snoc (.set sets')
  have after := (start.run longDecoder_inverts stocked run strings_clear.init.1).1
  obtain ⟨⟨t, reads⟩, _⟩ := after.reads stocked (show ¬ ("t" = "" ∨ "k" = "") by decide)
  exact ⟨s₃, t, run, known, run.snoc (.get reads)⟩

/-- With one entry the cache has let go of the first string when it is read, with two it has
not. -/
theorem strings_read_same : ∃ evicted s t,
    Run (Calls manifestJson longCodec longDecoder) (fresh 100 1)
      [(.set "t" "k" (.str "x"), .ok (.bool true)), (.set "t" "o" (.str "y"), .ok (.bool true))]
      evicted ∧ evicted.cached "t" "k" = none ∧
    Run (Calls manifestJson longCodec longDecoder) (fresh 100 1)
      [(.set "t" "k" (.str "x"), .ok (.bool true)), (.set "t" "o" (.str "y"), .ok (.bool true)),
        (.get "t" "k", .ok (.str "x"))] s ∧
    Run (Calls manifestJson longCodec longDecoder) (fresh 100 2)
      [(.set "t" "k" (.str "x"), .ok (.bool true)), (.set "t" "o" (.str "y"), .ok (.bool true)),
        (.get "t" "k", .ok (.str "x"))] t ∧
    ∀ name key held, s.cached name key = some held →
      reading manifestJson longDecoder (fun i => s.stored name (chunkKey key i)) held =
        reading manifestJson longDecoder (fun i => s.stored name (chunkKey key i)) (s.stored name key) := by
  obtain ⟨evicted, s, before, gone, run⟩ := strings_run (show 1 ∈ [1, 2] by decide)
  obtain ⟨_, t, _, _, other⟩ := strings_run (show 2 ∈ [1, 2] by decide)
  exact ⟨evicted, s, t, before, Option.isNone_iff_eq_none.mp (Option.isSome_eq_false_iff.mp gone),
    run, other, (cache_transparent manifestJson longCodec longDecoder longDecoder_inverts
      (by decide) (by decide) (by decide) run other rfl strings_clear).2⟩

end Store

end CachyDb
