import Passdoq.Vault.Cases

/-!
# Reading back what was saved

The packer calls of a save write one object (`packEntry_packs`, `serializeEntries_packs`, `packFile_packs`), and the
conversions of a load take it apart again.

* `Reachable.keyed` : every entry is kept under its own id;
* `decode_serializeEntries` : the entries that were serialized, with times cut to seconds, and of `2^32` or more only
  as many as the 32-bit header counts; what fits into a file has fewer (`fileBytes_size`);
* `decodeFile_fileBytes` : a saved file decodes under its data key to the header and those entries.
-/

namespace Passdoq
open Msgpack Crypto

/-! ## Times -/

namespace TimePoint

theorem toTimeT_eq (t : TimePoint) :
    t.toTimeT = if 0 ≤ t.ns then t.ns / 1000000000 else -(-t.ns / 1000000000) := by
  unfold toTimeT
  split_ifs with h
  · exact Int.tdiv_eq_ediv_of_nonneg h
  · rw [← Int.tdiv_eq_ediv_of_nonneg (by omega), Int.neg_tdiv, Int.neg_neg]

theorem toTimeT_fits (t : TimePoint) : -2 ^ 63 ≤ t.toTimeT ∧ t.toTimeT < 2 ^ 63 := by
  have h := t.fits
  rw [toTimeT_eq]
  split_ifs <;> omega

theorem ns_wrap {i : Int} (h : -2 ^ 63 ≤ i ∧ i < 2 ^ 63) : (wrap i).ns = i := by
  change i.bmod (2 ^ 64) = i
  exact Int.bmod_eq_of_le (by omega) (by omega)

/-- The conversions there and back do not overflow. -/
theorem ns_truncate (t : TimePoint) : t.truncate.ns = t.toTimeT * 1000000000 := by
  have h := t.fits
  refine ns_wrap ?_
  rw [toTimeT_eq]
  split_ifs <;> omega

theorem truncate_truncate (t : TimePoint) : t.truncate.truncate = t.truncate := by
  refine ext ?_
  rw [ns_truncate, toTimeT, ns_truncate, Int.mul_tdiv_cancel _ (by decide)]

theorem toTimeT_truncate (t : TimePoint) : t.truncate.toTimeT = t.toTimeT := by
  rw [toTimeT, ns_truncate, Int.mul_tdiv_cancel _ (by decide)]

theorem truncate_mono {t u : TimePoint} (h : t.ns ≤ u.ns) : t.truncate.ns ≤ u.truncate.ns := by
  rw [ns_truncate, ns_truncate, toTimeT_eq, toTimeT_eq]
  split_ifs <;> omega

theorem truncate_le {t : TimePoint} (h : 0 ≤ t.ns) : t.truncate.ns ≤ t.ns := by
  rw [ns_truncate, toTimeT_eq, if_pos h]
  omega

end TimePoint

theorem Entry.truncate_truncate (e : Entry) : e.truncate.truncate = e.truncate := by
  simp [Entry.truncate, TimePoint.truncate_truncate]

namespace Vault

variable {F : Format}

theorem stringToTime_timeToString (stale : Int) (t : TimePoint) : stringToTime stale (timeToString t) = t.truncate := by
  rw [stringToTime, timeToString, Decimal.readLong_renderInt t.toTimeT_fits]
  rfl

/-! ## What the packers write -/

/-- A map object whose keys are literals. -/
def record (fields : List (String × Obj)) : Obj := .map (fields.map fun p => (.str (ascii p.1), p.2))

/-- The map that it converts to. -/
def recordMap (fields : List (String × Obj)) : OrdMap Bytes Obj := OrdMap.ofList (fields.map fun p => (ascii p.1, p.2))

theorem asMap_record (fields : List (String × Obj)) : (record fields).asMap = some (recordMap fields) := by
  have key : (fields.map fun p => (Obj.str (ascii p.1), p.2)).mapM
      (fun (kv : Obj × Obj) => kv.1.asString.map fun k => (k, kv.2)) = some (fields.map fun p => (ascii p.1, p.2)) := by
    induction fields with
    | nil => rfl
    | cons p fields ih =>
      rw [List.map_cons, List.mapM_cons, ih]
      rfl
  rw [record, Obj.asMap, Obj.asPairs, key]
  rfl

theorem field_recordMap {fields : List (String × Obj)} (hnd : (fields.map fun p => ascii p.1).Nodup) {key : String}
    {v : Obj} (h : (key, v) ∈ fields) : field (recordMap fields) (ascii key) = v := by
  have hfind : (recordMap fields).find? (ascii key) = some v :=
    OrdMap.find?_ofList_of_mem (by rwa [List.map_map]) (List.mem_map.mpr ⟨_, h, rfl⟩)
  rw [field, hfind]
  rfl

def entryFields (entry : Entry) : List (String × Obj) := [
  ("id", .str entry.id),
  ("name", .str entry.name),
  ("username", .str entry.username),
  ("secret", .bin entry.secret),
  ("metadata", .map (entry.metadata.toList.map fun p => (.str p.1, .str p.2))),
  ("tags", .arr (entry.tags.map .str)),
  ("created", .str (timeToString entry.created)),
  ("modified", .str (timeToString entry.modified))]

def headerFields (h : VaultHeader) (encrypted : EncryptedData) : List (String × Obj) := [
  ("version", .uint h.version.toNat),
  ("salt", .bin h.salt),
  ("encrypted_data_key", .bin h.encryptedDataKey),
  ("data_key_nonce", .bin h.dataKeyNonce),
  ("encrypted_entries", record [("ciphertext", .bin encrypted.ciphertext), ("nonce", .bin encrypted.nonce)])]

theorem checkedSize_ok {k : Nat} {n : UInt32} (h : checkedSize k = .ok n) : n.toNat = k := by
  unfold checkedSize at h
  split_ifs at h with hk
  cases h
  exact UInt32.toNat_ofNat_of_lt' hk

theorem packString_packs {s b : Bytes} (h : packString F s = .ok b) : Packs F (.str s) b := by
  obtain ⟨n, hn, h⟩ := Except.bind_eq_ok.mp h
  cases h
  exact .str n s (checkedSize_ok hn)

theorem packVector_packs {s b : Bytes} (h : packVector F s = .ok b) : Packs F (.bin s) b := by
  obtain ⟨n, hn, h⟩ := Except.bind_eq_ok.mp h
  cases h
  exact .bin n s (checkedSize_ok hn)

theorem packEach_packs {α : Type} {pack : α → Except Fault Bytes} {obj : α → Obj}
    (hp : ∀ a b, pack a = .ok b → Packs F (obj a) b) {l : List α} {b : Bytes} (h : packEach pack l = .ok b) :
    PacksAll F (l.map obj) b := by
  induction l generalizing b with
  | nil =>
    cases h
    exact .nil
  | cons a l ih =>
    obtain ⟨c, hc, h⟩ := Except.bind_eq_ok.mp h
    obtain ⟨cs, hcs, h⟩ := Except.bind_eq_ok.mp h
    cases h
    exact .cons (hp a c hc) (ih hcs)

theorem packStrings_packs {l : List Bytes} {b : Bytes} (h : packStrings F l = .ok b) :
    Packs F (.arr (l.map .str)) b := by
  obtain ⟨n, hn, h⟩ := Except.bind_eq_ok.mp h
  obtain ⟨c, hc, h⟩ := Except.bind_eq_ok.mp h
  cases h
  exact .arr n (by rw [checkedSize_ok hn, List.length_map]) (packEach_packs (fun _ _ => packString_packs) hc)

theorem packStringPairs_packs {l : List (Bytes × Bytes)} {b : Bytes}
    (h : packEach (fun p => packEach (packString F) [p.1, p.2]) l = .ok b) :
    PacksPairs F (l.map fun p => (.str p.1, .str p.2)) b := by
  induction l generalizing b with
  | nil =>
    cases h
    exact .nil
  | cons p l ih =>
    simp only [packEach, Except.bind_eq_ok, Except.ok.injEq] at h
    obtain ⟨_, ⟨k, hk, _, ⟨v, hv, _, rfl, rfl⟩, rfl⟩, bs, hbs, rfl⟩ := h
    rw [List.append_nil]
    exact .cons (packString_packs hk) (packString_packs hv) (ih hbs)

theorem packStringMap_packs {m : OrdMap Bytes Bytes} {b : Bytes} (h : packStringMap F m = .ok b) :
    Packs F (.map (m.toList.map fun p => (.str p.1, .str p.2))) b := by
  obtain ⟨n, hn, h⟩ := Except.bind_eq_ok.mp h
  obtain ⟨c, hc, h⟩ := Except.bind_eq_ok.mp h
  cases h
  exact .map n (by rw [checkedSize_ok hn, List.length_map, OrdMap.size]) (packStringPairs_packs hc)

theorem packFields_nil {b : Bytes} (h : packEach id [] = .ok b) : PacksPairs F [] b := by
  cases h
  exact .nil

theorem packFields_cons {key : String} {value : Except Fault Bytes} {obj : Obj} {fields : List (Except Fault Bytes)}
    {kvs : List (Obj × Obj)} {b : Bytes} (h : packEach id (packField F key value :: fields) = .ok b)
    (hv : ∀ {v}, value = .ok v → Packs F obj v) (hs : ∀ {b}, packEach id fields = .ok b → PacksPairs F kvs b) :
    PacksPairs F ((.str (ascii key), obj) :: kvs) b := by
  obtain ⟨_, hf, h⟩ := Except.bind_eq_ok.mp h
  obtain ⟨bs, hbs, h⟩ := Except.bind_eq_ok.mp h
  obtain ⟨k, hk, hf⟩ := Except.bind_eq_ok.mp hf
  obtain ⟨v, hv', hf⟩ := Except.bind_eq_ok.mp hf
  cases h
  cases hf
  exact .cons (packString_packs hk) (hv hv') (hs hbs)

theorem packEntry_packs {entry : Entry} {b : Bytes} (h : packEntry F entry = .ok b) : Packs F (record (entryFields entry)) b := by
  obtain ⟨fields, hf, h⟩ := Except.bind_eq_ok.mp h
  cases h
  refine .map 8 rfl ?_
  exact packFields_cons hf packString_packs fun h => packFields_cons h packString_packs fun h =>
    packFields_cons h packString_packs fun h => packFields_cons h packVector_packs fun h =>
    packFields_cons h packStringMap_packs fun h => packFields_cons h packStrings_packs fun h =>
    packFields_cons h packString_packs fun h => packFields_cons h packString_packs fun h => packFields_nil h

/-- The size in the header counts modulo `2^32`, so the object ends after that many entries. -/
theorem serializeEntries_packs {es : OrdMap Bytes Entry} {b : Bytes} (h : serializeEntries F es = .ok b) :
    ∃ c rest, b = c ++ rest ∧
      Packs F (.arr ((es.take (es.size % 2 ^ 32)).toList.map fun p => record (entryFields p.2))) c := by
  obtain ⟨items, hi, h⟩ := Except.bind_eq_ok.mp h
  cases h
  have hall : PacksAll F (es.toList.map fun p => record (entryFields p.2)) items :=
    packEach_packs (fun _ _ => packEntry_packs) hi
  rw [← List.take_append_drop (es.size % 2 ^ 32) es.toList, List.map_append] at hall
  obtain ⟨c, rest, rfl, hc⟩ := hall.split
  refine ⟨F.arrayHeader es.size.toUInt32 ++ c, rest, by rw [List.append_assoc], .arr _ ?_ hc⟩
  rw [List.length_map, ← OrdMap.size, OrdMap.size_take]
  change (UInt32.ofNat es.size).toNat = _
  rw [UInt32.toNat_ofNat']
  omega

theorem packFile_packs {h : VaultHeader} {encrypted : EncryptedData} {b : Bytes} (hb : packFile F h encrypted = .ok b) :
    Packs F (record (headerFields h encrypted)) b := by
  obtain ⟨fields, hf, hb⟩ := Except.bind_eq_ok.mp hb
  obtain ⟨key, hk, hb⟩ := Except.bind_eq_ok.mp hb
  obtain ⟨entries, he, hb⟩ := Except.bind_eq_ok.mp hb
  cases hb
  have hentries : Packs F (record [("ciphertext", .bin encrypted.ciphertext), ("nonce", .bin encrypted.nonce)])
      (F.mapHeader 2 ++ entries) :=
    .map 2 rfl (packFields_cons he packVector_packs fun h => packFields_cons h packVector_packs fun h => packFields_nil h)
  refine .map 5 rfl (PacksPairs.append (packFields_cons hf ?_ fun h => packFields_cons h packVector_packs fun h =>
    packFields_cons h packVector_packs fun h => packFields_cons h packVector_packs fun h => packFields_nil h) ?_)
  · intro v hv
    cases hv
    exact .uint32 h.version
  · have := PacksPairs.cons (packString_packs hk) hentries .nil
    rwa [List.append_nil] at this

/-! ## What a load makes of it -/

theorem asStrings_strs (l : List Bytes) : (Obj.arr (l.map .str)).asStrings = some l := by
  change (l.map Obj.str).mapM Obj.asString = some l
  induction l with
  | nil => rfl
  | cons s l ih =>
    rw [List.map_cons, List.mapM_cons, ih]
    rfl

theorem asStringMap_strs (m : OrdMap Bytes Bytes) :
    (Obj.map (m.toList.map fun p => (.str p.1, .str p.2))).asStringMap = some m := by
  have hpairs : ∀ l : List (Bytes × Bytes), (Obj.map (l.map fun p => (.str p.1, .str p.2))).asPairs =
      some (l.map fun p => (p.1, .str p.2)) := by
    intro l
    induction l with
    | nil => rfl
    | cons p l ih =>
      rw [Obj.asPairs] at ih ⊢
      rw [List.map_cons, List.mapM_cons, ih]
      rfl
  have hvals : ∀ l : List (Bytes × Bytes), (l.map fun p => (p.1, Obj.str p.2)).mapM
      (fun (p : Bytes × Obj) => p.2.asString.map fun v => (p.1, v)) = some l := by
    intro l
    induction l with
    | nil => rfl
    | cons p l ih =>
      rw [List.map_cons, List.mapM_cons, ih]
      rfl
  rw [Obj.asStringMap, hpairs, Option.bind_some, hvals, Option.map_some, OrdMap.ofList_toList]

@[simp] theorem as_some {α : Type} (a : α) : as (some a) = .ok a := rfl

theorem nodup_entryFields (entry : Entry) : ((entryFields entry).map fun p => ascii p.1).Nodup := by
  change (["id", "name", "username", "secret", "metadata", "tags", "created", "modified"].map ascii).Nodup
  decide +kernel

theorem unpackEntry_record (stale : Int) (entry : Entry) :
    unpackEntry stale (record (entryFields entry)) = .ok entry.truncate := by
  have hf : ∀ (key : String) (v : Obj), (key, v) ∈ entryFields entry →
      field (recordMap (entryFields entry)) (ascii key) = v := fun _ _ => field_recordMap (nodup_entryFields entry)
  simp only [unpackEntry, asMap_record, as_some, Except.ok_bind,
    hf "id" (.str entry.id) (by simp [entryFields]),
    hf "name" (.str entry.name) (by simp [entryFields]),
    hf "username" (.str entry.username) (by simp [entryFields]),
    hf "secret" (.bin entry.secret) (by simp [entryFields]),
    hf "metadata" (.map (entry.metadata.toList.map fun p => (.str p.1, .str p.2))) (by simp [entryFields]),
    hf "tags" (.arr (entry.tags.map .str)) (by simp [entryFields]),
    hf "created" (.str (timeToString entry.created)) (by simp [entryFields]),
    hf "modified" (.str (timeToString entry.modified)) (by simp [entryFields]),
    asStringMap_strs, asStrings_strs, Obj.asString, Obj.asVector, stringToTime_timeToString, Entry.truncate]

theorem mapM_map_ok {α β γ : Type} {f : α → β} {g : β → Except Fault γ} {h : α → γ} (hg : ∀ a, g (f a) = .ok (h a))
    (l : List α) : (l.map f).mapM g = .ok (l.map h) := by
  induction l with
  | nil => rfl
  | cons a l ih =>
    rw [List.map_cons, List.mapM_cons, hg, ih]
    rfl

/-- The entries that a save of `es` leaves to be loaded. -/
def reloaded (es : OrdMap Bytes Entry) : OrdMap Bytes Entry := es.mapVal Entry.truncate

/-- Inserting the entries by their ids rebuilds the map, as every entry was kept under its id; of `2^32` entries or more
only as many come back as the header counts. -/
theorem decode_serializeEntries (hF : F.Lawful) {es : OrdMap Bytes Entry} {b : Bytes} (hk : Keyed es)
    (h : serializeEntries F es = .ok b) (stale : Int) :
    decodeEntries F stale b = .ok (reloaded (es.take (es.size % 2 ^ 32))) := by
  obtain ⟨c, rest, rfl, hc⟩ := serializeEntries_packs h
  have hlist : (es.take (es.size % 2 ^ 32)).toList.map ((fun entry : Entry => (entry.id, entry)) ∘
      fun p : Bytes × Entry => p.2.truncate) = (reloaded (es.take (es.size % 2 ^ 32))).toList := by
    refine List.map_congr_left fun p hp => ?_
    have hid : p.2.id = p.1 := hk p.1 p.2 ((es.mem_iff_find? p.1 p.2).mp (List.mem_of_mem_take hp))
    change (p.2.id, p.2.truncate) = (p.1, p.2.truncate)
    rw [hid]
  have hitems := mapM_map_ok (f := fun p : Bytes × Entry => record (entryFields p.2))
    (fun p => unpackEntry_record stale p.2) (es.take (es.size % 2 ^ 32)).toList
  rw [decodeEntries, unpack, hF.unpack_packs hc]
  simp only [Except.ok_bind, Obj.asArray, as_some, hitems, List.map_map, hlist, OrdMap.ofList_toList]

/-- What is written of the times is their seconds. -/
theorem packEntry_truncate (entry : Entry) : packEntry F entry.truncate = packEntry F entry := by
  simp only [packEntry, Entry.truncate, timeToString, TimePoint.toTimeT_truncate]

theorem serializeEntries_reloaded (es : OrdMap Bytes Entry) : serializeEntries F (reloaded es) = serializeEntries F es := by
  have key : ∀ l : List (Bytes × Entry), packEach (fun p => packEntry F p.2) (l.map fun p => (p.1, p.2.truncate)) =
      packEach (fun p => packEntry F p.2) l := by
    intro l
    induction l with
    | nil => rfl
    | cons p l ih => simp only [List.map_cons, packEach, packEntry_truncate, ih]
  have hsize : (reloaded es).size = es.size := List.length_map _
  rw [serializeEntries, serializeEntries, hsize, ← key es.toList]
  rfl

/-! ## How much fits into a file -/

theorem packString_length {s b : Bytes} (h : packString F s = .ok b) : s.length ≤ b.length := by
  obtain ⟨n, -, h⟩ := Except.bind_eq_ok.mp h
  cases h
  rw [List.length_append]
  omega

theorem packEntry_length {entry : Entry} {b : Bytes} (h : packEntry F entry = .ok b) : 1 ≤ b.length := by
  obtain ⟨fields, hf, h⟩ := Except.bind_eq_ok.mp h
  obtain ⟨field, hfield, hf⟩ := Except.bind_eq_ok.mp hf
  obtain ⟨rest, -, hf⟩ := Except.bind_eq_ok.mp hf
  obtain ⟨key, hkey, hfield⟩ := Except.bind_eq_ok.mp hfield
  obtain ⟨value, -, hfield⟩ := Except.bind_eq_ok.mp hfield
  cases h
  cases hf
  cases hfield
  have hlen : (ascii "id").length ≤ key.length := packString_length hkey
  have hid : (ascii "id").length = 2 := by decide +kernel
  simp only [List.length_append]
  omega

theorem packEach_length {α : Type} {pack : α → Except Fault Bytes} (hp : ∀ a b, pack a = .ok b → 1 ≤ b.length) {l : List α}
    {b : Bytes} (h : packEach pack l = .ok b) : l.length ≤ b.length := by
  induction l generalizing b with
  | nil => exact Nat.zero_le _
  | cons a l ih =>
    obtain ⟨c, hc, h⟩ := Except.bind_eq_ok.mp h
    obtain ⟨cs, hcs, h⟩ := Except.bind_eq_ok.mp h
    cases h
    have hfirst := hp a c hc
    have hrest := ih hcs
    rw [List.length_append, List.length_cons]
    omega

theorem serializeEntries_length {es : OrdMap Bytes Entry} {b : Bytes} (h : serializeEntries F es = .ok b) :
    es.size ≤ b.length := by
  obtain ⟨items, hi, h⟩ := Except.bind_eq_ok.mp h
  cases h
  have hlen := packEach_length (fun _ _ => packEntry_length) hi
  rw [List.length_append]
  unfold OrdMap.size
  omega

theorem packEach_mem {α : Type} {pack : α → Except Fault Bytes} {l : List α} {b : Bytes} (h : packEach pack l = .ok b)
    {a : α} (ha : a ∈ l) : ∃ c, pack a = .ok c := by
  induction l generalizing b with
  | nil => cases ha
  | cons a' l ih =>
    obtain ⟨c, hc, h⟩ := Except.bind_eq_ok.mp h
    obtain ⟨cs, hcs, -⟩ := Except.bind_eq_ok.mp h
    rcases List.mem_cons.mp ha with rfl | ha
    · exact ⟨c, hc⟩
    · exact ih hcs ha

theorem packVector_size {s b : Bytes} (h : packVector F s = .ok b) : s.length < 2 ^ 32 := by
  obtain ⟨n, hn, -⟩ := Except.bind_eq_ok.mp h
  have hsize := checkedSize_ok hn
  have hlt := n.toNat_lt
  omega

/-- A secret that is packed has a size of 32 bits. -/
theorem serializeEntries_secret {es : OrdMap Bytes Entry} {b id : Bytes} {entry : Entry}
    (h : serializeEntries F es = .ok b) (hf : es.find? id = some entry) : entry.secret.length < 2 ^ 32 := by
  obtain ⟨items, hi, -⟩ := Except.bind_eq_ok.mp h
  obtain ⟨c, hc⟩ := packEach_mem hi ((OrdMap.mem_iff_find? es id entry).mpr hf)
  obtain ⟨fields, hfields, -⟩ := Except.bind_eq_ok.mp hc
  have hmem : packField F "secret" (packVector F entry.secret) ∈ [
      packField F "id" (packString F entry.id), packField F "name" (packString F entry.name),
      packField F "username" (packString F entry.username), packField F "secret" (packVector F entry.secret)] := by
    simp only [List.mem_cons, true_or, or_true]
  obtain ⟨field, hfield⟩ := packEach_mem hfields (List.mem_append_left _ hmem)
  obtain ⟨key, -, hfield⟩ := Except.bind_eq_ok.mp hfield
  obtain ⟨value, hvalue, -⟩ := Except.bind_eq_ok.mp hfield
  exact packVector_size hvalue

theorem packFile_length {h : VaultHeader} {encrypted : EncryptedData} {b : Bytes} (hb : packFile F h encrypted = .ok b) :
    encrypted.ciphertext.length < 2 ^ 32 := by
  obtain ⟨fields, -, hb⟩ := Except.bind_eq_ok.mp hb
  obtain ⟨key, -, hb⟩ := Except.bind_eq_ok.mp hb
  obtain ⟨entries, he, -⟩ := Except.bind_eq_ok.mp hb
  obtain ⟨field, hfield, -⟩ := Except.bind_eq_ok.mp he
  obtain ⟨name, -, hfield⟩ := Except.bind_eq_ok.mp hfield
  obtain ⟨value, hvalue, -⟩ := Except.bind_eq_ok.mp hfield
  exact packVector_size hvalue

theorem nodup_headerFields (h : VaultHeader) (encrypted : EncryptedData) :
    ((headerFields h encrypted).map fun p => ascii p.1).Nodup := by
  change (["version", "salt", "encrypted_data_key", "data_key_nonce", "encrypted_entries"].map ascii).Nodup
  decide +kernel

theorem asUInt32_uint (n : UInt32) : (Obj.uint n.toNat).asUInt32 = some n := by
  rw [Obj.asUInt32, if_pos n.toNat_lt, UInt32.ofNat_toNat]

section File

variable {S : Sodium} {nonce : Nonce} {v w : Vault} {b : Bytes} {h : VaultHeader} {encrypted : EncryptedData}

theorem fileMap_packFile (hF : F.Lawful) (hb : packFile F h encrypted = .ok b) :
    fileMap F b = .ok (recordMap (headerFields h encrypted)) := by
  rw [fileMap, unpack, hF.unpack_self (packFile_packs hb), Except.ok_bind, asMap_record, as_some]

/-- A file cut short is none. -/
theorem fileMap_take (hW : F.Whole) (hb : packFile F h encrypted = .ok b) {k : Nat} (hk : k < b.length) :
    fileMap F (b.take k) = .error (.exn .unpackError) := by
  rw [fileMap, unpack, hW _ _ (packFile_packs hb) k hk]
  rfl

theorem decodeHeader_record : decodeHeader (recordMap (headerFields h encrypted)) = .ok h := by
  have hf : ∀ (key : String) (v : Obj), (key, v) ∈ headerFields h encrypted →
      field (recordMap (headerFields h encrypted)) (ascii key) = v :=
    fun _ _ => field_recordMap (nodup_headerFields h encrypted)
  simp only [decodeHeader, hf "version" (.uint h.version.toNat) (by simp [headerFields]),
    hf "salt" (.bin h.salt) (by simp [headerFields]),
    hf "encrypted_data_key" (.bin h.encryptedDataKey) (by simp [headerFields]),
    hf "data_key_nonce" (.bin h.dataKeyNonce) (by simp [headerFields]), asUInt32_uint, Obj.asVector, as_some,
    Except.ok_bind]

theorem encryptedEntries_record :
    encryptedEntries (recordMap (headerFields h encrypted)) = .ok ⟨encrypted.ciphertext, encrypted.nonce, []⟩ := by
  have hnd : ([("ciphertext", Obj.bin encrypted.ciphertext), ("nonce", .bin encrypted.nonce)].map
      fun p => ascii p.1).Nodup := by
    change (["ciphertext", "nonce"].map ascii).Nodup
    decide +kernel
  rw [encryptedEntries, field_recordMap (nodup_headerFields h encrypted)
    (v := record [("ciphertext", .bin encrypted.ciphertext), ("nonce", .bin encrypted.nonce)]) (by simp [headerFields]),
    asMap_record, as_some, Except.ok_bind, field_recordMap hnd (v := .bin encrypted.ciphertext) (by simp),
    field_recordMap hnd (v := .bin encrypted.nonce) (by simp)]
  rfl

theorem deref_ok {α : Type} {x : Option α} {a : α} (h : deref x = .ok a) : x = some a := by
  cases x with
  | none => cases h
  | some b => exact congrArg some (Except.ok.inj h)

/-- What `save` encrypts, under which key, and what it writes. -/
theorem fileBytes_ok (hb : fileBytes S F nonce v = .ok b) :
    ∃ serialized dataKey mac, serializeEntries F v.entries = .ok serialized ∧ v.dataKey = some dataKey ∧
      packFile F v.header ⟨S.easy dataKey nonce serialized, nonce.1, mac⟩ = .ok b := by
  obtain ⟨serialized, hser, hb⟩ := Except.bind_eq_ok.mp hb
  obtain ⟨dataKey, hdk, hb⟩ := Except.bind_eq_ok.mp hb
  rw [encrypt_key, Except.ok_bind] at hb
  exact ⟨serialized, dataKey, _, hser, deref_ok hdk, hb⟩

/-- What a save writes is what a reload lets through. -/
theorem fileBytes_reloaded (v : Vault) (es : OrdMap Bytes Entry) :
    fileBytes S F nonce { v with entries := reloaded es } = fileBytes S F nonce { v with entries := es } := by
  simp only [fileBytes, serializeEntries_reloaded]

/-- A vault that fits into a file has fewer entries than its 32-bit header counts. -/
theorem fileBytes_size (hS : S.Correct) (hb : fileBytes S F nonce v = .ok b) : v.entries.size < 2 ^ 32 := by
  obtain ⟨serialized, dataKey, mac, hser, -, hb⟩ := fileBytes_ok hb
  have hcipher := packFile_length hb
  rw [hS.length_easy] at hcipher
  have hlen := serializeEntries_length hser
  omega

/-- A vault that is not unlocked takes the header from a saved file. -/
theorem decodeFile_header (hF : F.Lawful) (hb : fileBytes S F nonce v = .ok b) (e : Env) (hw : w.state ≠ .unlocked) :
    decodeFile S F e w b = .ok (v.header, w.entries) := by
  obtain ⟨serialized, dataKey, mac, -, -, hb⟩ := fileBytes_ok hb
  have hes : loadedEntries S F e w (recordMap (headerFields v.header ⟨S.easy dataKey nonce serialized, nonce.1, mac⟩)) =
      .ok w.entries := by
    unfold loadedEntries
    split
    · next hs _ => exact absurd hs hw
    · rfl
  rw [decodeFile, fileMap_packFile hF hb, Except.ok_bind, decodeHeader_record, Except.ok_bind, hes, Except.ok_bind]

/-- An unlocked vault with the data key it was saved under takes the entries too. -/
theorem decodeFile_fileBytes (hS : S.Correct) (hF : F.Lawful) (hk : Keyed v.entries)
    (hb : fileBytes S F nonce v = .ok b) (e : Env) (hw : w.state = .unlocked) (hd : w.dataKey = v.dataKey) :
    decodeFile S F e w b = .ok (v.header, reloaded v.entries) := by
  have hsize := fileBytes_size hS hb
  obtain ⟨serialized, dataKey, mac, hser, hdk, hb⟩ := fileBytes_ok hb
  have hdec : decrypt S e.beyond ⟨S.easy dataKey nonce serialized, nonce.1, []⟩ dataKey.1 = .ok serialized := by
    rw [decrypt_key hS (Nat.le_of_eq nonce.2.symm), Block.pad_of_length nonce.2, hS.open_easy]
  have hes : loadedEntries S F e w (recordMap (headerFields v.header ⟨S.easy dataKey nonce serialized, nonce.1, mac⟩)) =
      .ok (reloaded v.entries) := by
    rw [loadedEntries, hw, hd, hdk]
    dsimp only
    rw [openEntries, encryptedEntries_record, Except.ok_bind, hdec, Except.ok_bind,
      decode_serializeEntries hF hk hser, Nat.mod_eq_of_lt hsize, OrdMap.take_of_size_le (Nat.le_refl _)]
  rw [decodeFile, fileMap_packFile hF hb, Except.ok_bind, decodeHeader_record, Except.ok_bind, hes, Except.ok_bind]

end File

end Vault

/-! ## Entries stay under their ids -/

section Keyed

open Vault

variable {S : Sodium} {F : Format} {e : Env} {p p' : Proc}

theorem Effect.keyed {op : Op} (h : Effect S F e p op p') (hk : Keyed p.vault.entries) : Keyed p'.vault.entries := by
  cases h with
  | stay => exact hk
  | entries => exact Op.outcome_keyed op e hk
  | aim => exact hk
  | create =>
    rw [save_vault]
    exact hk
  | @«open» path => exact load_keyed (p := p.withPath path) hk
  | @unlock _ _ d dk => exact load_keyed (p := p.withKeys d.key dk) hk
  | lock => exact keyed_empty
  | load => exact load_keyed hk
  | save =>
    rw [save_vault]
    exact hk
  | rekey =>
    rw [save_vault]
    exact hk

theorem Proc.step_keyed (h : Keyed p.vault.entries) (ev : Event) (hs : p.step S F ev = some p') :
    Keyed p'.vault.entries := by
  cases ev with
  | call e op =>
    obtain ⟨hr, rfl⟩ := Proc.step_call.mp hs
    exact (exec_effect hr).keyed h
  | external path contents =>
    cases hs
    exact h

/-- In every state of a run the entries are kept under their own ids. -/
theorem Reachable.keyed (h : Reachable S F p) : Keyed p.vault.entries := by
  obtain ⟨fs, evs, hr⟩ := h
  exact runs_preserves (I := fun p => Keyed p.vault.entries) (fun p ev p' hI hs => Proc.step_keyed hI ev hs) keyed_empty hr

end Keyed

end Passdoq
