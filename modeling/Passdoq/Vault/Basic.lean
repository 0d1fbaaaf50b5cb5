import Passdoq.Lib.Eff
import Passdoq.Lib.Run
import Passdoq.Vault.Entry
import Mathlib

/-!
# The vault

`Vault` is the state of one `Vault` object, `Proc` that object with the file system it works on. Each operation of
`vault.cpp` is an `Act`: it reads and assigns the state, and an exception leaves the assignments made before it.
What the world supplies to one call (random bytes, the clock, the fate of its reads and writes) is its `Env`.

* `load`, `save` and the operations over them, under the names of the source;
* `Op`, `Reply`, `exec` : one call of a public operation;
* `Event`, `Proc.step`, `Reachable` : runs of one object beside other writers of its files.
-/

namespace Passdoq
open Msgpack Crypto

inductive VaultState
  | locked
  | unlocked
  | uninitialized
  deriving DecidableEq

structure VaultHeader where
  version : UInt32
  salt : Bytes
  encryptedDataKey : Bytes
  dataKeyNonce : Bytes
  deriving DecidableEq

structure Vault where
  path : Bytes
  state : VaultState
  header : VaultHeader
  masterKey : Option Key
  dataKey : Option Key
  entries : OrdMap Bytes Entry
  deriving DecidableEq

/-- A vault just constructed. The source leaves `header_.version` unset, and reads it only after setting it. -/
def Vault.fresh : Vault := ⟨[], .uninitialized, ⟨0, [], [], []⟩, none, none, ∅⟩

/-- The contents of each path; `none` where there is no file. -/
abbrev FS := Bytes → Option Bytes

/-- How reading a file goes: opening it fails, a read fails on the way, or all of it is read. -/
inductive ReadIO
  | refused
  | broken
  | whole
  deriving DecidableEq

/-- How writing a file goes: opening it fails; at most `k` bytes reach the truncated file; all of them do. `good`
is what the stream reports before it is closed. -/
inductive WriteIO
  | refused
  | short (k : Nat) (good : Bool)
  | full (good : Bool)
  deriving DecidableEq

/-- What the world supplies to one call. -/
structure Env where
  /-- random bytes: a salt, a data key, the nonce it is wrapped with, the nonce of the entries, an id -/
  salt : Salt
  dataKey : Key
  keyNonce : Nonce
  nonce : Nonce
  id : Block 16
  now : TimePoint
  /-- whether Argon2id gets its memory -/
  alloc : Bool
  read : ReadIO
  write : WriteIO
  /-- what an access past the end of a buffer meets -/
  beyond : Option Bytes
  /-- what an unset `time_t` variable holds -/
  stale : Int

/-- A call in which nothing fails, with every random byte equal to `b`. -/
def Env.calm (b : UInt8) (now : TimePoint) : Env :=
  ⟨Block.const _ b, Block.const _ b, Block.const _ b, Block.const _ b, Block.const _ b, now, true, .whole, .full true, none, 0⟩

structure Proc where
  vault : Vault
  fs : FS

abbrev Act := Eff Proc Fault

namespace Vault

def readFile (fs : FS) (path : Bytes) (io : ReadIO) : Except Fault (Option Bytes) :=
  match fs path, io with
  | none, _ => .ok none
  | some _, .refused => .ok none
  | some _, .broken => .error (.exn .iosFailure)
  | some data, .whole => .ok (some data)

/-- Write `buffer` to `path`, and what `file.good()` says; `none` when the file does not open. -/
def writeFile (fs : FS) (path : Bytes) (io : WriteIO) (buffer : Bytes) : Option Bool × FS :=
  match io with
  | .refused => (none, fs)
  | .short k good => (some good, Function.update fs path (some (buffer.take k)))
  | .full good => (some good, Function.update fs path (some buffer))

def getVault : Act Vault := fun p => (.ok p.vault, p)

def setVault (f : Vault → Vault) : Act Unit := Eff.modify fun p => { p with vault := f p.vault }

@[simp] theorem getVault_apply (p : Proc) : getVault p = (.ok p.vault, p) := rfl

@[simp] theorem setVault_apply (f : Vault → Vault) (p : Proc) : setVault f p = (.ok (), { p with vault := f p.vault }) :=
  rfl

/-- `catch (const std::exception&) { return false; }`. -/
def orFalse (x : Act Bool) : Act Bool := Eff.catching Fault.isException x (pure false)

/-- A pointer that is used unchecked. -/
def deref {α : Type} (x : Option α) : Except Fault α :=
  match x with
  | some a => .ok a
  | none => .error .trap

variable (S : Sodium) (F : Format)

/-! ## Persistence -/

/-- The bytes of the file: the header in plaintext and the encrypted entries. -/
def packFile (h : VaultHeader) (encrypted : EncryptedData) : Except Fault Bytes := do
  let fields ← packEach id [
    packField F "version" (.ok (F.uint32 h.version)),
    packField F "salt" (packVector F h.salt),
    packField F "encrypted_data_key" (packVector F h.encryptedDataKey),
    packField F "data_key_nonce" (packVector F h.dataKeyNonce)]
  let key ← packString F (ascii "encrypted_entries")
  let entries ← packEach id [
    packField F "ciphertext" (packVector F encrypted.ciphertext),
    packField F "nonce" (packVector F encrypted.nonce)]
  .ok (F.mapHeader 5 ++ (fields ++ (key ++ (F.mapHeader 2 ++ entries))))

/-- What `save` writes for an unlocked vault. -/
def fileBytes (nonce : Nonce) (v : Vault) : Except Fault Bytes := do
  let serialized ← serializeEntries F v.entries
  let dataKey ← deref v.dataKey
  let encrypted ← encrypt S nonce serialized dataKey.1
  packFile F v.header encrypted

def save (e : Env) : Act Bool := do
  let v ← getVault
  if v.state ≠ .unlocked then return false
  orFalse do
    let buffer ← Eff.lift (fileBytes S F e.nonce v)
    let p ← Eff.get
    let (good, fs) := writeFile p.fs v.path e.write buffer
    Eff.modify fun p => { p with fs := fs }
    return good.getD false

/-- The assignments of the four header fields; the first that does not convert ends them. -/
def loadHeader (map : OrdMap Bytes Obj) : Act Unit := do
  let version ← Eff.lift (as (field map (ascii "version")).asUInt32)
  setVault fun v => { v with header := { v.header with version := version } }
  let salt ← Eff.lift (as (field map (ascii "salt")).asVector)
  setVault fun v => { v with header := { v.header with salt := salt } }
  let key ← Eff.lift (as (field map (ascii "encrypted_data_key")).asVector)
  setVault fun v => { v with header := { v.header with encryptedDataKey := key } }
  let nonce ← Eff.lift (as (field map (ascii "data_key_nonce")).asVector)
  setVault fun v => { v with header := { v.header with dataKeyNonce := nonce } }

/-- The ciphertext and nonce of the entries in a file. -/
def encryptedEntries (map : OrdMap Bytes Obj) : Except Fault EncryptedData := do
  let entries ← as (field map (ascii "encrypted_entries")).asMap
  let ciphertext ← as (field entries (ascii "ciphertext")).asVector
  let nonce ← as (field entries (ascii "nonce")).asVector
  .ok ⟨ciphertext, nonce, []⟩

/-- The loop of `deserialize_entries`. -/
def deserializeLoop (stale : Int) : List Obj → Act Unit
  | [] => pure ()
  | item :: array => do
    let entry ← Eff.lift (unpackEntry stale item)
    setVault fun v => { v with entries := v.entries.insert entry.id entry }
    deserializeLoop stale array

def unpack (data : Bytes) : Except Fault Obj :=
  match F.unpack data with
  | some obj => .ok obj
  | none => .error (.exn .unpackError)

def deserializeEntries (stale : Int) (data : Bytes) : Act Unit := do
  setVault fun v => { v with entries := ∅ }
  let obj ← Eff.lift (unpack F data)
  let array ← Eff.lift (as obj.asArray)
  deserializeLoop stale array

/-- The part of `load` that an unlocked vault goes on with. -/
def loadEntries (e : Env) (map : OrdMap Bytes Obj) : Act Unit := do
  let v ← getVault
  match v.state, v.dataKey with
  | .unlocked, some dataKey =>
    let encrypted ← Eff.lift (encryptedEntries map)
    let decrypted ← Eff.lift (decrypt S e.beyond encrypted dataKey.1)
    deserializeEntries F e.stale decrypted
  | _, _ => pure ()

def load (e : Env) : Act Bool := orFalse do
  let p ← Eff.get
  let file ← Eff.lift (readFile p.fs p.vault.path e.read)
  match file with
  | none => return false
  | some data =>
    let obj ← Eff.lift (unpack F data)
    let map ← Eff.lift (as obj.asMap)
    loadHeader map
    loadEntries S F e map
    return true

/-! ## Creating, opening, locking -/

def create (e : Env) (path passphrase : Bytes) : Act Bool := do
  let v ← getVault
  if v.state ≠ .uninitialized then return false
  setVault fun v => { v with path := path }
  let derived ← Eff.lift (deriveMasterKey S e.salt e.alloc e.beyond passphrase [])
  setVault fun v => { v with masterKey := some derived.key }
  setVault fun v => { v with dataKey := some e.dataKey }
  let encrypted ← Eff.lift (encrypt S e.keyNonce e.dataKey.1 derived.key.1)
  setVault fun v => { v with header := ⟨1, derived.salt, encrypted.ciphertext, encrypted.nonce⟩ }
  setVault fun v => { v with state := .unlocked }
  save S F e

def «open» (e : Env) (path : Bytes) : Act Bool := do
  let v ← getVault
  if v.state ≠ .uninitialized then return false
  setVault fun v => { v with path := path }
  let loaded ← load S F e
  if ¬ loaded then return false
  setVault fun v => { v with state := .locked }
  return true

def unlock (e : Env) (passphrase : Bytes) : Act Bool := do
  let v ← getVault
  if v.state ≠ .locked then return false
  let derived ← Eff.lift (deriveMasterKey S e.salt e.alloc e.beyond passphrase v.header.salt)
  orFalse do
    let dataKey ← Eff.lift (decrypt S e.beyond ⟨v.header.encryptedDataKey, v.header.dataKeyNonce, []⟩ derived.key.1)
    setVault fun v => { v with masterKey := some derived.key }
    let dataKey ← Eff.lift (copyInto e.beyond DATA_KEY_SIZE dataKey)
    setVault fun v => { v with dataKey := some dataKey }
    setVault fun v => { v with state := .unlocked }
    load S F e

def lock : Act Unit := do
  let v ← getVault
  if v.state = .unlocked then
    setVault fun v => { v with masterKey := none, dataKey := none, entries := ∅, state := .locked }

def ensureUnlocked : Act Unit := do
  let v ← getVault
  if v.state ≠ .unlocked then Eff.throw (.exn (.runtimeError "Vault is locked"))

/-! ## Entries -/

def hexDigit (n : Nat) : UInt8 := if n < 10 then UInt8.ofNat (48 + n) else UInt8.ofNat (87 + n)

/-- Two hexadecimal digits for each of the 16 random bytes. -/
def generateId (bytes : Block 16) : Bytes := bytes.1.flatMap fun b => [hexDigit (b.toNat / 16), hexDigit (b.toNat % 16)]

def addEntry (e : Env) (entry : Entry) : Act Bytes := do
  ensureUnlocked
  let id := generateId e.id
  let newEntry := { entry with id := id, created := e.now, modified := e.now }
  setVault fun v => { v with entries := v.entries.insert newEntry.id newEntry }
  return newEntry.id

def updateEntry (e : Env) (id : Bytes) (entry : Entry) : Act Bool := do
  ensureUnlocked
  let v ← getVault
  match v.entries.find? id with
  | none => return false
  | some old =>
    let updated := { entry with id := id, created := old.created, modified := e.now }
    setVault fun v => { v with entries := v.entries.insert id updated }
    return true

def deleteEntry (id : Bytes) : Act Bool := do
  ensureUnlocked
  let v ← getVault
  setVault fun v => { v with entries := v.entries.erase id }
  return (v.entries.find? id).isSome

def getEntry (id : Bytes) : Act Entry := do
  ensureUnlocked
  let v ← getVault
  match v.entries.find? id with
  | none => Eff.throw (.exn (.runtimeError "Entry not found"))
  | some entry => return entry

def listEntries : Act (List Entry) := do
  ensureUnlocked
  let v ← getVault
  return v.entries.toList.map Prod.snd

/-- `find(query) != npos`. -/
def contains (s query : Bytes) : Bool := s.tails.any fun t => query.isPrefixOf t

def search (query : Bytes) : Act (List Entry) := do
  ensureUnlocked
  let v ← getVault
  return (v.entries.toList.map Prod.snd).filter fun entry => contains entry.name query || contains entry.username query

def searchByTag (tag : Bytes) : Act (List Entry) := do
  ensureUnlocked
  let v ← getVault
  return (v.entries.toList.map Prod.snd).filter fun entry => entry.tags.contains tag

def rekey (e : Env) (newDataKey : Bytes) : Act Bool := do
  ensureUnlocked
  if h : newDataKey.length = DATA_KEY_SIZE then
    let v ← getVault
    let _ ← Eff.lift (deref v.dataKey)
    setVault fun v => { v with dataKey := some ⟨newDataKey, h⟩ }
    let masterKey ← Eff.lift (deref v.masterKey)
    let encrypted ← Eff.lift (encrypt S e.keyNonce newDataKey masterKey.1)
    setVault fun v =>
      { v with header := { v.header with encryptedDataKey := encrypted.ciphertext, dataKeyNonce := encrypted.nonce } }
    save S F e
  else return false

end Vault

/-! ## Calls and runs -/

/-- A call of a public operation. -/
inductive Op
  | create (path passphrase : Bytes)
  | open (path : Bytes)
  | unlock (passphrase : Bytes)
  | lock
  | load
  | save
  | rekey (newDataKey : Bytes)
  | addEntry (entry : Entry)
  | updateEntry (id : Bytes) (entry : Entry)
  | deleteEntry (id : Bytes)
  | getEntry (id : Bytes)
  | listEntries
  | search (query : Bytes)
  | searchByTag (tag : Bytes)

/-- The operations that read the entries of the file. -/
def Op.readsEntries : Op → Bool
  | .load | .unlock _ => true
  | _ => false

inductive Reply
  | unit
  | bool (b : Bool)
  | id (s : Bytes)
  | entry (e : Entry)
  | entries (l : List Entry)
  deriving DecidableEq

variable (S : Sodium) (F : Format)

def exec (e : Env) : Op → Act Reply
  | .create path passphrase => Reply.bool <$> Vault.create S F e path passphrase
  | .open path => Reply.bool <$> Vault.«open» S F e path
  | .unlock passphrase => Reply.bool <$> Vault.unlock S F e passphrase
  | .lock => (fun _ => Reply.unit) <$> Vault.lock
  | .load => Reply.bool <$> Vault.load S F e
  | .save => Reply.bool <$> Vault.save S F e
  | .rekey newDataKey => Reply.bool <$> Vault.rekey S F e newDataKey
  | .addEntry entry => Reply.id <$> Vault.addEntry e entry
  | .updateEntry id entry => Reply.bool <$> Vault.updateEntry e id entry
  | .deleteEntry id => Reply.bool <$> Vault.deleteEntry id
  | .getEntry id => Reply.entry <$> Vault.getEntry id
  | .listEntries => Reply.entries <$> Vault.listEntries
  | .search query => Reply.entries <$> Vault.search query
  | .searchByTag tag => Reply.entries <$> Vault.searchByTag tag

/-- A step of a run: a call on the object, or another writer putting `contents` at `path`. -/
inductive Event
  | call (e : Env) (op : Op)
  | external (path : Bytes) (contents : Option Bytes)

/-- The state after an event; `none` when the process was stopped by a bad access. -/
def Proc.step (S : Sodium) (F : Format) (p : Proc) : Event → Option Proc
  | .call e op => match exec S F e op p with
    | (.error .trap, _) => none
    | (_, p') => some p'
  | .external path contents => some { p with fs := Function.update p.fs path contents }

/-- The states that a run from a fresh vault, over any file system, reaches. -/
def Reachable (p : Proc) : Prop := ∃ fs evs, runs (Proc.step S F) ⟨.fresh, fs⟩ evs = some p

end Passdoq
