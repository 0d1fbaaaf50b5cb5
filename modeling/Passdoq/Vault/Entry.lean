import Passdoq.Crypto
import Passdoq.Lib.Decimal
import Passdoq.Lib.Msgpack

/-!
# Entries and their serialized form

* `TimePoint` : a `system_clock` time, a signed 64-bit count of nanoseconds;
* `timeToString`, `stringToTime` : whole seconds in decimal;
* `packEntry`, `unpackEntry` : one entry as a MessagePack map of eight fields, and back.
-/

namespace Passdoq
open Msgpack

/-- A time of `std::chrono::system_clock`: nanoseconds since the epoch in 64 bits. -/
structure TimePoint where
  ns : Int
  fits : -2 ^ 63 ≤ ns ∧ ns < 2 ^ 63
  deriving DecidableEq

namespace TimePoint

theorem ext {t u : TimePoint} (h : t.ns = u.ns) : t = u := by cases t; cases u; cases h; rfl

/-- The time of a number of nanoseconds, in wrapping 64-bit arithmetic. -/
def wrap (ns : Int) : TimePoint :=
  ⟨ns.bmod (2 ^ 64), by
    have h1 := Int.le_bmod (x := ns) (m := 2 ^ 64) (by decide)
    have h2 := Int.bmod_lt (x := ns) (m := 2 ^ 64) (by decide)
    omega⟩

def epoch : TimePoint := ⟨0, by decide⟩

instance : Inhabited TimePoint := ⟨epoch⟩

/-- `system_clock::to_time_t`: whole seconds, rounded towards the epoch. -/
def toTimeT (t : TimePoint) : Int := t.ns.tdiv 1000000000

/-- `system_clock::from_time_t`. -/
def fromTimeT (s : Int) : TimePoint := wrap (s * 1000000000)

/-- The time cut down to whole seconds. -/
def truncate (t : TimePoint) : TimePoint := fromTimeT t.toTimeT

end TimePoint

structure Entry where
  id : Bytes
  name : Bytes
  username : Bytes
  secret : Bytes
  metadata : OrdMap Bytes Bytes
  tags : List Bytes
  created : TimePoint
  modified : TimePoint
  deriving DecidableEq

/-- An entry as a caller that sets no time leaves it. -/
def Entry.blank : Entry := ⟨[], [], [], [], ∅, [], .epoch, .epoch⟩

def Entry.truncate (e : Entry) : Entry := { e with created := e.created.truncate, modified := e.modified.truncate }

namespace Vault

/-! ## Packing -/

def timeToString (tp : TimePoint) : Bytes := Decimal.renderInt tp.toTimeT

/-- `stale` is what the variable holds when nothing is extracted into it. -/
def stringToTime (stale : Int) (str : Bytes) : TimePoint :=
  TimePoint.fromTimeT ((Decimal.readLong str).getD stale)

variable (F : Format)

/-- The size a packer writes for a container; one of `2^32` elements or more is refused. -/
def checkedSize (n : Nat) : Except Fault UInt32 :=
  if n < 2 ^ 32 then .ok n.toUInt32 else .error (.exn .containerSizeOverflow)

/-- `pack(std::string)`, also of a literal. -/
def packString (s : Bytes) : Except Fault Bytes := do
  let n ← checkedSize s.length
  .ok (F.strHeader n ++ s)

/-- `pack(std::vector<uint8_t>)`. -/
def packVector (s : Bytes) : Except Fault Bytes := do
  let n ← checkedSize s.length
  .ok (F.binHeader n ++ s)

/-- Pack one item after the other. -/
def packEach {α : Type} (pack : α → Except Fault Bytes) : List α → Except Fault Bytes
  | [] => .ok []
  | a :: as => do
    let b ← pack a
    let bs ← packEach pack as
    .ok (b ++ bs)

/-- `pack(std::vector<std::string>)`. -/
def packStrings (l : List Bytes) : Except Fault Bytes := do
  let n ← checkedSize l.length
  let b ← packEach (packString F) l
  .ok (F.arrayHeader n ++ b)

/-- `pack(std::map<std::string, std::string>)`. -/
def packStringMap (m : OrdMap Bytes Bytes) : Except Fault Bytes := do
  let n ← checkedSize m.size
  let b ← packEach (fun p => packEach (packString F) [p.1, p.2]) m.toList
  .ok (F.mapHeader n ++ b)

def packField (key : String) (value : Except Fault Bytes) : Except Fault Bytes := do
  let k ← packString F (ascii key)
  let v ← value
  .ok (k ++ v)

/-- The packer calls that the loop of `serialize_entries` makes for one entry. -/
def packEntry (entry : Entry) : Except Fault Bytes := do
  let fields ← packEach id [
    packField F "id" (packString F entry.id),
    packField F "name" (packString F entry.name),
    packField F "username" (packString F entry.username),
    packField F "secret" (packVector F entry.secret),
    packField F "metadata" (packStringMap F entry.metadata),
    packField F "tags" (packStrings F entry.tags),
    packField F "created" (packString F (timeToString entry.created)),
    packField F "modified" (packString F (timeToString entry.modified))]
  .ok (F.mapHeader 8 ++ fields)

/-- The body of `serialize_entries`: the number of entries goes into a 32-bit header unchecked. -/
def serializeEntries (entries : OrdMap Bytes Entry) : Except Fault Bytes := do
  let b ← packEach (fun p => packEntry F p.2) entries.toList
  .ok (F.arrayHeader entries.size.toUInt32 ++ b)

/-! ## Unpacking -/

/-- `as<T>`: what does not convert throws. -/
def as {α : Type} (x : Option α) : Except Fault α :=
  match x with
  | some a => .ok a
  | none => .error (.exn .typeError)

/-- The entry that the loop of `deserialize_entries` makes of one item. -/
def unpackEntry (stale : Int) (item : Obj) : Except Fault Entry := do
  let map ← as item.asMap
  let id ← as (field map (ascii "id")).asString
  let name ← as (field map (ascii "name")).asString
  let username ← as (field map (ascii "username")).asString
  let secret ← as (field map (ascii "secret")).asVector
  let metadata ← as (field map (ascii "metadata")).asStringMap
  let tags ← as (field map (ascii "tags")).asStrings
  let created ← as (field map (ascii "created")).asString
  let modified ← as (field map (ascii "modified")).asString
  .ok ⟨id, name, username, secret, metadata, tags, stringToTime stale created, stringToTime stale modified⟩

end Vault

end Passdoq
