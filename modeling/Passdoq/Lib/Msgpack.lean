import Passdoq.Lib.Bytes
import Passdoq.Lib.OrdMap

/-!
# MessagePack objects

* `Obj` : a MessagePack object, and the conversions of its `as<T>` (`none` where they throw);
* `Format` : what a packer writes for one header or integer, and what an unpacker reads;
* `Packs F o b` : the packer calls for the object `o` write the bytes `b`;
* `Format.Lawful` : unpacking undoes packing, whatever bytes follow the object;
* `Format.Short` : no string or binary that is unpacked has `2^32` bytes.
-/

namespace Msgpack

inductive Obj
  | nil
  | bool (b : Bool)
  | uint (n : Nat)
  | nint (n : Int)
  | float (bits : Bytes)
  | str (s : Bytes)
  | bin (s : Bytes)
  | arr (xs : List Obj)
  | map (kvs : List (Obj × Obj))
  | ext (type : UInt8) (s : Bytes)

namespace Obj

/-- `as<uint32_t>`. -/
def asUInt32 : Obj → Option UInt32
  | .uint n => if n < 2 ^ 32 then some (UInt32.ofNat n) else none
  | _ => none

/-- `as<std::string>`. -/
def asString : Obj → Option Bytes
  | .str s => some s
  | .bin s => some s
  | _ => none

/-- `as<std::vector<uint8_t>>`. -/
def asVector : Obj → Option Bytes
  | .bin s => some s
  | .str s => some s
  | _ => none

/-- `as<std::vector<msgpack::object>>`. -/
def asArray : Obj → Option (List Obj)
  | .arr xs => some xs
  | _ => none

/-- `as<std::vector<std::string>>`. -/
def asStrings (o : Obj) : Option (List Bytes) := o.asArray.bind fun xs => xs.mapM asString

/-- The pairs of a map object with their keys as strings. -/
def asPairs : Obj → Option (List (Bytes × Obj))
  | .map kvs => kvs.mapM fun kv => kv.1.asString.map fun k => (k, kv.2)
  | _ => none

/-- `as<std::map<std::string, msgpack::object>>`: of two pairs with one key the later wins. -/
def asMap (o : Obj) : Option (OrdMap Bytes Obj) := o.asPairs.map OrdMap.ofList

/-- `as<std::map<std::string, std::string>>`. -/
def asStringMap (o : Obj) : Option (OrdMap Bytes Bytes) :=
  o.asPairs.bind fun ps => (ps.mapM fun (p : Bytes × Obj) => p.2.asString.map fun v => (p.1, v)).map OrdMap.ofList

end Obj

/-- `s` is a string or a binary in the object. -/
inductive Obj.Holds : Obj → Bytes → Prop
  | str (s : Bytes) : Holds (.str s) s
  | bin (s : Bytes) : Holds (.bin s) s
  | elem {x : Obj} {xs : List Obj} {s : Bytes} (hx : x ∈ xs) (h : Holds x s) : Holds (.arr xs) s
  | key {kv : Obj × Obj} {kvs : List (Obj × Obj)} {s : Bytes} (hkv : kv ∈ kvs) (h : Holds kv.1 s) : Holds (.map kvs) s
  | value {kv : Obj × Obj} {kvs : List (Obj × Obj)} {s : Bytes} (hkv : kv ∈ kvs) (h : Holds kv.2 s) : Holds (.map kvs) s

/-- The strings and binaries in the object have sizes of 32 bits. -/
def Obj.Short (o : Obj) : Prop := ∀ s, o.Holds s → s.length < 2 ^ 32

/-- `map[key]`: a key that is not there stands for a fresh object, which is nil. -/
def field (m : OrdMap Bytes Obj) (key : Bytes) : Obj := (m.find? key).getD .nil

/-- What a packer writes for the headers and integers, and what an unpacker reads. -/
structure Format where
  arrayHeader : UInt32 → Bytes
  mapHeader : UInt32 → Bytes
  strHeader : UInt32 → Bytes
  binHeader : UInt32 → Bytes
  uint32 : UInt32 → Bytes
  unpack : Bytes → Option Obj

mutual

/-- The packer calls for `o` write `b`. -/
inductive Packs (F : Format) : Obj → Bytes → Prop
  | uint32 (n : UInt32) : Packs F (.uint n.toNat) (F.uint32 n)
  | str (n : UInt32) (s : Bytes) : n.toNat = s.length → Packs F (.str s) (F.strHeader n ++ s)
  | bin (n : UInt32) (s : Bytes) : n.toNat = s.length → Packs F (.bin s) (F.binHeader n ++ s)
  | arr {xs : List Obj} {b : Bytes} (n : UInt32) :
      n.toNat = xs.length → PacksAll F xs b → Packs F (.arr xs) (F.arrayHeader n ++ b)
  | map {kvs : List (Obj × Obj)} {b : Bytes} (n : UInt32) :
      n.toNat = kvs.length → PacksPairs F kvs b → Packs F (.map kvs) (F.mapHeader n ++ b)

/-- The packer calls for the objects `xs`, one after the other, write `b`. -/
inductive PacksAll (F : Format) : List Obj → Bytes → Prop
  | nil : PacksAll F [] []
  | cons {x : Obj} {xs : List Obj} {b bs : Bytes} :
      Packs F x b → PacksAll F xs bs → PacksAll F (x :: xs) (b ++ bs)

/-- The packer calls for the pairs `kvs`, one after the other, write `b`. -/
inductive PacksPairs (F : Format) : List (Obj × Obj) → Bytes → Prop
  | nil : PacksPairs F [] []
  | cons {k v : Obj} {kvs : List (Obj × Obj)} {bk bv bs : Bytes} :
      Packs F k bk → Packs F v bv → PacksPairs F kvs bs → PacksPairs F ((k, v) :: kvs) (bk ++ bv ++ bs)

end

/-- Unpacking undoes packing, and leaves alone what follows the object. -/
structure Format.Lawful (F : Format) : Prop where
  unpack_packs : ∀ {o : Obj} {b : Bytes}, Packs F o b → ∀ rest, F.unpack (b ++ rest) = some o

/-- The sizes in the format have 32 bits. -/
def Format.Short (F : Format) : Prop := ∀ b o, F.unpack b = some o → o.Short

/-- Of a packed object every byte is needed. -/
def Format.Whole (F : Format) : Prop := ∀ o b, Packs F o b → ∀ k < b.length, F.unpack (b.take k) = none

theorem Format.Lawful.unpack_self {F : Format} (h : F.Lawful) {o : Obj} {b : Bytes} (hp : Packs F o b) :
    F.unpack b = some o := by simpa using h.unpack_packs hp []

theorem PacksPairs.append {F : Format} {xs ys : List (Obj × Obj)} {b c : Bytes} (hx : PacksPairs F xs b)
    (hy : PacksPairs F ys c) : PacksPairs F (xs ++ ys) (b ++ c) := by
  induction xs generalizing b with
  | nil =>
    cases hx
    exact hy
  | cons x xs ih =>
    cases hx with
    | cons hk hv hs =>
      rw [List.cons_append, List.append_assoc]
      exact .cons hk hv (ih hs)

section Short

variable {o : Obj} {m : OrdMap Bytes Obj} {s : Bytes}

theorem short_nil : Obj.nil.Short := fun _ h => by cases h

theorem Obj.Short.asVector (h : o.Short) (ho : o.asVector = some s) : s.length < 2 ^ 32 := by
  cases o with
  | str s' =>
    cases ho
    exact h s (.str s)
  | bin s' =>
    cases ho
    exact h s (.bin s)
  | _ => cases ho

theorem mem_asPairs {kvs : List (Obj × Obj)} {ps : List (Bytes × Obj)} (h : (Obj.map kvs).asPairs = some ps) {k : Bytes}
    {v : Obj} (hmem : (k, v) ∈ ps) : ∃ kv ∈ kvs, kv.2 = v := by
  induction kvs generalizing ps with
  | nil =>
    cases h
    cases hmem
  | cons kv kvs ih =>
    simp only [Obj.asPairs] at h ih
    rw [List.mapM_cons] at h
    obtain ⟨p, hp, h⟩ := Option.bind_eq_some_iff.mp h
    obtain ⟨ps', hps, h⟩ := Option.bind_eq_some_iff.mp h
    obtain ⟨key, -, rfl⟩ := Option.map_eq_some_iff.mp hp
    cases h
    rcases List.mem_cons.mp hmem with heq | hmem
    · cases heq
      exact ⟨kv, List.mem_cons_self, rfl⟩
    · obtain ⟨kv', hkv', hv⟩ := ih hps hmem
      exact ⟨kv', List.mem_cons_of_mem _ hkv', hv⟩

/-- What a map object holds under a key is in the object. -/
theorem Obj.Short.field (h : o.Short) (hm : o.asMap = some m) (key : Bytes) : (field m key).Short := by
  obtain ⟨ps, hps, rfl⟩ := Option.map_eq_some_iff.mp hm
  unfold Msgpack.field
  cases hf : (OrdMap.ofList ps).find? key with
  | none => exact short_nil
  | some v =>
    cases o with
    | map kvs =>
      obtain ⟨kv, hkv, rfl⟩ := mem_asPairs hps (OrdMap.mem_of_find?_ofList hf)
      exact fun s hs => h s (.value hkv hs)
    | _ => cases hps

end Short

/-- The first objects of a sequence wrote the first bytes. -/
theorem PacksAll.split {F : Format} {xs ys : List Obj} {b : Bytes} (h : PacksAll F (xs ++ ys) b) :
    ∃ c d, b = c ++ d ∧ PacksAll F xs c := by
  induction xs generalizing b with
  | nil => exact ⟨[], b, rfl, .nil⟩
  | cons x xs ih =>
    cases h with
    | cons hx hs =>
      obtain ⟨c, d, rfl, hc⟩ := ih hs
      exact ⟨_, d, (List.append_assoc _ _ _).symm, .cons hx hc⟩

end Msgpack
