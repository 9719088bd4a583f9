import CachyDb.Storage.Calls

set_option autoImplicit false

/-! Threads that call `get` and `set` on one key. A call is cut where other threads can come in
between: at the sections under the lock of the table and at the calls of the cache outside it. -/

namespace CachyDb

open ByteString Router Transition

/-- What is left of a call. After its first locked section a write that needs a flush looks at
`flush_futures`, may wait, and swaps. -/
inductive Program
  | ret (result : Except RouterError Value)
  | rawManifest (next : Value → Program)
  | setInternal (key : String) (value : Value) (next : Except RouterError Unit → Program)
  | flushing (next : Except RouterError Unit → Program)
  | getCached (key : String) (next : Except RouterError (Option Value) → Program)
  | getLocked (key : String) (next : Except RouterError Value → Program)
  | putCache (value : Value) (next : Except RouterError Unit → Program)

namespace Program

/-- `_get_internal`. -/
def getInternal (key : String) (next : Except RouterError Value → Program) : Program :=
  .getCached key fun
    | .error e => next (.error e)
    | .ok (some value) => next (.ok value)
    | .ok none => .getLocked key next

/-- The loop over the chunks in `get`. A missing chunk, and what the loop raises, gives `None`. -/
def collect (decoder : Decoder) (key : String) (next : List Bytes → Program) :
    List Nat → List Bytes → Program
  | [], chunks => next chunks
  | i :: rest, chunks =>
      getInternal (chunkKey key i) fun
        | .error _ => .ret (.ok .null)
        | .ok value =>
            match decodeChunk decoder value with
            | none => .ret (.ok .null)
            | some chunk => collect decoder key next rest (chunks ++ [chunk])

/-- The value is put together and cached. -/
def finish (json : Json) (decoder : Decoder) (found : Value) (chunks : List Bytes) : Program :=
  match assemble json decoder found chunks with
  | none => .ret (.ok .null)
  | some original =>
      .putCache original fun
        | .error _ => .ret (.ok .null)
        | .ok () => .ret (.ok original)

/-- `get`, when `_get_internal` has found a value. -/
def rebuild (json : Json) (decoder : Decoder) (key : String) (found : Value) : Program :=
  if flagged overflowFlag found then
    match overflowChunks found with
    | none => .ret (.ok .null)
    | some count => collect decoder key (finish json decoder found) (List.range count) []
  else .ret (.ok found)

def get (json : Json) (decoder : Decoder) (name key : String) : Program :=
  if name = "" ∨ key = "" then .ret (.error .emptyName)
  else
    getInternal key fun
      | .error e => .ret (.error e)
      | .ok found => rebuild json decoder key found

/-- The end of a `set`. -/
def done (result : Except RouterError Unit) : Program := .ret (result.map fun _ => .bool true)

/-- Calls of `_set_internal`, up to the first that raises. -/
def writeEach (next : Except RouterError Unit → Program) : List (String × Value) → Program
  | [] => next (.ok ())
  | (key, value) :: rest =>
      .setInternal key value fun
        | .error e => next (.error e)
        | .ok () => writeEach next rest

/-- The clean-up of the chunks of an older large value. What it raises is caught. -/
def cleanUp (key : String) (next : Program) : Program :=
  .rawManifest fun old =>
    match overflowChunks old with
    | none => next
    | some count => writeEach (fun _ => next) (tombstones key count)

/-- The chunks, the manifest and the cache entry of a large value. -/
def writeLarge (codec : Codec) (key : String) (value : Value) (text : Bytes)
    (next : Except RouterError Unit → Program) : Program :=
  let chunks := cutChunks (codec.compress text)
  writeEach (fun
    | .error e => next (.error e)
    | .ok () =>
        .setInternal key (manifest chunks.length text.length) fun
          | .error e => next (.error e)
          | .ok () => .putCache value next) (chunkRecords codec key chunks)

/-- `set`. What the branch for large values raises is caught, and the value is then written as it
is. A deletion sets `None`. -/
def set (json : Json) (codec : Codec) (name key : String) (value : Value) : Program :=
  if name = "" ∨ key = "" then .ret (.error .emptyName)
  else
    match largeText json key value with
    | some text =>
        cleanUp key (writeLarge codec key value text fun
          | .error _ => .setInternal key value done
          | .ok () => done (.ok ()))
    | none =>
        if isChunkKey key then .setInternal key value done
        else cleanUp key (.setInternal key value done)

/-- What follows the first locked section of `_set_internal`: `needs_flush`, or what it raises. -/
def afterWrite (next : Except RouterError Unit → Program) : Except RouterError Bool → Program
  | .error e => next (.error e)
  | .ok false => next (.ok ())
  | .ok true => .flushing next

/-- The step behind that section. `future.result()` raises what the flush has raised. -/
def flush (s : Store) (thread : Nat) (next : Except RouterError Unit → Program) :
    Option (Store × Program) :=
  match s.clients thread with
  | .full _ => (s.check thread).map fun t => (t, .flushing next)
  | .waiting _ _ =>
      (s.wake thread).map fun t =>
        (t, match t.clients thread with
          | .idle => next (.error .io)
          | _ => .flushing next)
  | .ready _ => (s.swap thread).map fun t => (t, next (.ok ()))
  | _ => none

def step (json : Json) (name key : String) (s : Store) (thread : Nat) :
    Program → Option (Store × Program)
  | .ret _ => none
  | .rawManifest next =>
      some (s.lookedUp json name key, next (s.router.getRawManifest json name key).1)
  | .setInternal other value next =>
      if name = "" ∨ other = "" then some (s, next (.error .emptyName))
      else
        match packRecord json other value with
        | .error e => some (s, next (.error e))
        | .ok packed =>
            (s.set json thread name other value).map fun t =>
              (t, afterWrite next (s.router.setLocked name other value packed).1)
  | .flushing next => flush s thread next
  | .getCached other next =>
      some ({ s with router := (s.router.getCached name other).2 },
        next (s.router.getCached name other).1)
  | .getLocked other next =>
      some ({ s with router := (s.router.getLocked json name other).2 },
        next (s.router.getLocked json name other).1)
  | .putCache value next =>
      some (s.recalled name key value, next (s.router.putCache name key value).1)

end Program

/-- The store, what is left of each thread's call, and whether another thread has written since
the call began. -/
structure Threads where
  store : Store
  programs : Nat → Program
  disturbed : Nat → Bool

namespace Threads

/-- A call on the key. -/
inductive Request
  | get
  | set (value : Value)

/-- A thread begins a call or goes on with it; a flush or the writer of the log goes on. -/
inductive Move
  | call (thread : Nat) (request : Request)
  | run (thread : Nat)
  | store (e : Store.Event)

def program (json : Json) (codec : Codec) (decoder : Decoder) (name key : String) :
    Request → Program
  | .get => Program.get json decoder name key
  | .set value => Program.set json codec name key value

def start (s : Store) : Threads := ⟨s, fun _ => .ret (.ok .null), fun _ => false⟩

/-- The step of a program writes into the table. -/
def writes (json : Json) (name : String) : Program → Bool
  | .setInternal key value _ => ¬ (name = "" ∨ key = "") && packs json (key, value)
  | _ => false

/-- After a write all other calls are disturbed. -/
def disturb (disturbed : Nat → Bool) (thread : Nat) (writes : Bool) : Nat → Bool :=
  fun other => disturbed other || (writes && other ≠ thread)

def perform (json : Json) (codec : Codec) (decoder : Decoder) (name key : String) (m : Threads) :
    Move → Option Threads
  | .call thread request =>
      match m.programs thread with
      | .ret _ =>
          some { m with
            programs := Function.update m.programs thread
              (program json codec decoder name key request)
            disturbed := Function.update m.disturbed thread false }
      | _ => none
  | .run thread =>
      ((m.programs thread).step json name key m.store thread).map fun next =>
        ⟨next.1, Function.update m.programs thread next.2,
          disturb m.disturbed thread (writes json name (m.programs thread))⟩
  | .store e =>
      match e with
      | .flush _ _ | .raise _ _ | .writer _ =>
          (m.store.perform json e).map fun s => { m with store := s }
      | _ => none

/-- No call is in progress. -/
def AtRest (m : Threads) : Prop := ∀ thread, ∃ result, m.programs thread = .ret result

end Threads

end CachyDb
