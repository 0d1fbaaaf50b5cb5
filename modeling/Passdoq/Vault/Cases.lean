import Passdoq.Lib.Except
import Passdoq.Vault.Basic

/-!
# What each operation does

One lemma for each operation that says all it can do, so that no later proof opens its definition.
-/

namespace Passdoq
open Msgpack Crypto

/-- The header and the entries replaced. -/
def Proc.assign (p : Proc) (h : VaultHeader) (es : OrdMap Bytes Entry) : Proc :=
  { p with vault := { p.vault with header := h, entries := es } }

section Assign

variable (p : Proc) (h h' : VaultHeader) (es es' : OrdMap Bytes Entry)

@[simp] theorem Proc.assign_assign : (p.assign h es).assign h' es' = p.assign h' es' := rfl

@[simp] theorem Proc.assign_self : p.assign p.vault.header p.vault.entries = p := rfl

@[simp] theorem Proc.path_assign : (p.assign h es).vault.path = p.vault.path := rfl

@[simp] theorem Proc.state_assign : (p.assign h es).vault.state = p.vault.state := rfl

@[simp] theorem Proc.header_assign : (p.assign h es).vault.header = h := rfl

@[simp] theorem Proc.masterKey_assign : (p.assign h es).vault.masterKey = p.vault.masterKey := rfl

@[simp] theorem Proc.dataKey_assign : (p.assign h es).vault.dataKey = p.vault.dataKey := rfl

@[simp] theorem Proc.entries_assign : (p.assign h es).vault.entries = es := rfl

@[simp] theorem Proc.fs_assign : (p.assign h es).fs = p.fs := rfl

end Assign

/-- Every entry is kept under its own id. -/
def Keyed (es : OrdMap Bytes Entry) : Prop := ∀ id entry, es.find? id = some entry → entry.id = id

theorem keyed_empty : Keyed ∅ := fun id entry h => by simp at h

theorem Keyed.insert {es : OrdMap Bytes Entry} (h : Keyed es) (entry : Entry) : Keyed (es.insert entry.id entry) := by
  intro id entry' hf
  rw [OrdMap.find?_insert] at hf
  split_ifs at hf with hid
  · rw [← Option.some.inj hf, hid]
  · exact h id entry' hf

theorem Keyed.insertMany {es : OrdMap Bytes Entry} (h : Keyed es) (items : List Entry) :
    Keyed (es.insertMany (items.map fun entry => (entry.id, entry))) := by
  induction items generalizing es with
  | nil => exact h
  | cons entry items ih => exact ih (h.insert entry)

theorem Keyed.erase {es : OrdMap Bytes Entry} (h : Keyed es) (id : Bytes) : Keyed (es.erase id) := by
  intro id' entry hf
  rw [OrdMap.find?_erase] at hf
  split_ifs at hf
  exact h id' entry hf

namespace Vault

variable {S : Sodium} {F : Format} {e : Env} {p p' : Proc}

theorem orFalse_apply (x : Act Bool) (p : Proc) :
    orFalse x p = match x p with
      | (.ok b, p') => (.ok b, p')
      | (.error (.exn _), p') => (.ok false, p')
      | (.error .trap, p') => (.error .trap, p') := by
  rw [orFalse, Eff.catching_apply]
  rcases x p with ⟨r, p'⟩
  rcases r with (f | b)
  · cases f <;> rfl
  · rfl

theorem orFalse_orFalse (x : Act Bool) : orFalse (orFalse x) = orFalse x := by
  funext p
  simp only [orFalse_apply]
  rcases x p with ⟨r, p'⟩
  rcases r with (f | b)
  · cases f <;> rfl
  · rfl

/-! ## Saving -/

theorem save_locked (h : p.vault.state ≠ .unlocked) : save S F e p = (.ok false, p) := by
  simp [save, h]

theorem save_unlocked (h : p.vault.state = .unlocked) :
    save S F e p = match fileBytes S F e.nonce p.vault with
      | .ok b => (.ok ((writeFile p.fs p.vault.path e.write b).1.getD false),
          { p with fs := (writeFile p.fs p.vault.path e.write b).2 })
      | .error (.exn _) => (.ok false, p)
      | .error .trap => (.error .trap, p) := by
  simp only [save, Eff.bind_apply, getVault_apply, h, ne_eq, not_true_eq_false, if_false, orFalse_apply, Eff.lift_apply]
  cases fileBytes S F e.nonce p.vault with
  | error f => cases f <;> rfl
  | ok b => rfl

theorem save_vault (S : Sodium) (F : Format) (e : Env) (p : Proc) : (save S F e p).2.vault = p.vault := by
  by_cases hs : p.vault.state = .unlocked
  · rw [save_unlocked hs]
    rcases fileBytes S F e.nonce p.vault with ⟨⟩ | b
    · next f => cases f <;> rfl
    · rfl
  · rw [save_locked hs]

theorem bind_ne_trap {α β : Type} {x : Except Fault α} {f : α → Except Fault β} (hx : x ≠ .error .trap)
    (hf : ∀ a, f a ≠ .error .trap) : x >>= f ≠ .error .trap := by
  intro h
  rcases Except.bind_eq_error.mp h with h | ⟨a, -, h⟩
  · exact hx h
  · exact hf a h

theorem checkedSize_ne_trap (n : Nat) : checkedSize n ≠ .error .trap := by
  unfold checkedSize
  split_ifs <;> simp

theorem packString_ne_trap (s : Bytes) : packString F s ≠ .error .trap :=
  bind_ne_trap (checkedSize_ne_trap _) fun _ => nofun

theorem packVector_ne_trap (s : Bytes) : packVector F s ≠ .error .trap :=
  bind_ne_trap (checkedSize_ne_trap _) fun _ => nofun

theorem packEach_ne_trap {α : Type} {pack : α → Except Fault Bytes} {l : List α}
    (h : ∀ a ∈ l, pack a ≠ .error .trap) : packEach pack l ≠ .error .trap := by
  induction l with
  | nil => nofun
  | cons a l ih =>
    exact bind_ne_trap (h a List.mem_cons_self) fun _ =>
      bind_ne_trap (ih fun b hb => h b (List.mem_cons_of_mem _ hb)) fun _ => nofun

theorem packField_ne_trap {key : String} {value : Except Fault Bytes} (h : value ≠ .error .trap) :
    packField F key value ≠ .error .trap :=
  bind_ne_trap (packString_ne_trap _) fun _ => bind_ne_trap h fun _ => nofun

theorem packEntry_ne_trap (entry : Entry) : packEntry F entry ≠ .error .trap := by
  refine bind_ne_trap (packEach_ne_trap ?_) fun _ => nofun
  simp only [List.mem_cons, List.not_mem_nil, or_false, forall_eq_or_imp, forall_eq, id]
  have hmap : packStringMap F entry.metadata ≠ .error .trap :=
    bind_ne_trap (checkedSize_ne_trap _) fun _ => bind_ne_trap
      (packEach_ne_trap fun p _ => packEach_ne_trap fun s _ => packString_ne_trap s) fun _ => nofun
  have htags : packStrings F entry.tags ≠ .error .trap :=
    bind_ne_trap (checkedSize_ne_trap _) fun _ => bind_ne_trap
      (packEach_ne_trap fun s _ => packString_ne_trap s) fun _ => nofun
  exact ⟨packField_ne_trap (packString_ne_trap _), packField_ne_trap (packString_ne_trap _),
    packField_ne_trap (packString_ne_trap _), packField_ne_trap (packVector_ne_trap _), packField_ne_trap hmap,
    packField_ne_trap htags, packField_ne_trap (packString_ne_trap _), packField_ne_trap (packString_ne_trap _)⟩

theorem packFile_ne_trap (h : VaultHeader) (encrypted : EncryptedData) : packFile F h encrypted ≠ .error .trap := by
  refine bind_ne_trap (packEach_ne_trap ?_) fun _ => bind_ne_trap (packString_ne_trap _) fun _ =>
    bind_ne_trap (packEach_ne_trap ?_) fun _ => nofun
  · simp only [List.mem_cons, List.not_mem_nil, or_false, forall_eq_or_imp, forall_eq, id]
    exact ⟨packField_ne_trap nofun, packField_ne_trap (packVector_ne_trap _), packField_ne_trap (packVector_ne_trap _),
      packField_ne_trap (packVector_ne_trap _)⟩
  · simp only [List.mem_cons, List.not_mem_nil, or_false, forall_eq_or_imp, forall_eq, id]
    exact ⟨packField_ne_trap (packVector_ne_trap _), packField_ne_trap (packVector_ne_trap _)⟩

/-- With a data key in memory a save can only throw. -/
theorem fileBytes_ne_trap {v : Vault} (hk : v.dataKey.isSome) (nonce : Nonce) : fileBytes S F nonce v ≠ .error .trap := by
  obtain ⟨dk, hk⟩ := Option.isSome_iff_exists.mp hk
  refine bind_ne_trap (bind_ne_trap (packEach_ne_trap fun p _ => packEntry_ne_trap p.2) fun _ => nofun) fun _ =>
    bind_ne_trap (by rw [hk]; nofun) fun dataKey => bind_ne_trap ?_ fun _ => packFile_ne_trap _ _
  rw [encrypt_key]
  nofun

/-- `save` returns a Boolean, and never throws. -/
theorem save_returns (hk : p.vault.state = .unlocked → p.vault.dataKey.isSome) :
    ∃ b, save S F e p = (.ok b, (save S F e p).2) := by
  by_cases hs : p.vault.state = .unlocked
  · rw [save_unlocked hs]
    rcases Except.ok_or_error (fileBytes S F e.nonce p.vault) with ⟨b, hb⟩ | ⟨f, hb⟩
    · rw [hb]
      exact ⟨_, rfl⟩
    · cases f with
      | exn x =>
        rw [hb]
        exact ⟨_, rfl⟩
      | trap => exact absurd hb (fileBytes_ne_trap (hk hs) _)
  · rw [save_locked hs]
    exact ⟨_, rfl⟩

/-! ## Loading -/

def decodeHeader (map : OrdMap Bytes Obj) : Except Fault VaultHeader := do
  let version ← as (field map (ascii "version")).asUInt32
  let salt ← as (field map (ascii "salt")).asVector
  let key ← as (field map (ascii "encrypted_data_key")).asVector
  let nonce ← as (field map (ascii "data_key_nonce")).asVector
  .ok ⟨version, salt, key, nonce⟩

/-- The header after the fields of a file were assigned, up to the first that does not convert. -/
def headerRead (map : OrdMap Bytes Obj) (h : VaultHeader) : VaultHeader :=
  match (field map (ascii "version")).asUInt32 with
  | none => h
  | some version => match (field map (ascii "salt")).asVector with
    | none => { h with version := version }
    | some salt => match (field map (ascii "encrypted_data_key")).asVector with
      | none => { h with version := version, salt := salt }
      | some key => match (field map (ascii "data_key_nonce")).asVector with
        | none => { h with version := version, salt := salt, encryptedDataKey := key }
        | some nonce => ⟨version, salt, key, nonce⟩

/-- The entries in a decrypted payload. -/
def decodeEntries (F : Format) (stale : Int) (data : Bytes) : Except Fault (OrdMap Bytes Entry) := do
  let obj ← unpack F data
  let array ← as obj.asArray
  let items ← array.mapM (unpackEntry stale)
  .ok (OrdMap.ofList (items.map fun entry => (entry.id, entry)))

def openEntries (S : Sodium) (F : Format) (e : Env) (dataKey : Key) (map : OrdMap Bytes Obj) :
    Except Fault (OrdMap Bytes Entry) := do
  let encrypted ← encryptedEntries map
  let decrypted ← decrypt S e.beyond encrypted dataKey.1
  decodeEntries F e.stale decrypted

/-- The entries that loading `map` leaves in the vault `v`, when it goes well. -/
def loadedEntries (S : Sodium) (F : Format) (e : Env) (v : Vault) (map : OrdMap Bytes Obj) :
    Except Fault (OrdMap Bytes Entry) :=
  match v.state, v.dataKey with
  | .unlocked, some dataKey => openEntries S F e dataKey map
  | _, _ => .ok v.entries

/-- The fields of a file. -/
def fileMap (F : Format) (data : Bytes) : Except Fault (OrdMap Bytes Obj) := do
  let obj ← unpack F data
  as obj.asMap

/-- The header and the entries that loading a file with these contents leaves in the vault `v`, when it goes well. -/
def decodeFile (S : Sodium) (F : Format) (e : Env) (v : Vault) (data : Bytes) :
    Except Fault (VaultHeader × OrdMap Bytes Entry) := do
  let map ← fileMap F data
  let h ← decodeHeader map
  let es ← loadedEntries S F e v map
  .ok (h, es)

theorem as_ok {α : Type} {x : Option α} {a : α} : as x = .ok a ↔ x = some a := by
  cases x <;> simp [as]

theorem as_error {α : Type} {x : Option α} {f : Fault} : as x = .error f ↔ x = none ∧ f = .exn .typeError := by
  cases x <;> simp [as, eq_comm]

theorem headerRead_of_decodeHeader {map : OrdMap Bytes Obj} {h : VaultHeader} (hd : decodeHeader map = .ok h)
    (h' : VaultHeader) : headerRead map h' = h := by
  simp only [decodeHeader, Except.bind_eq_ok, as_ok] at hd
  obtain ⟨version, h1, salt, h2, key, h3, nonce, h4, hd⟩ := hd
  cases hd
  simp only [headerRead, h1, h2, h3, h4]

theorem loadHeader_ok {map : OrdMap Bytes Obj} {h : VaultHeader} (hd : decodeHeader map = .ok h) (p : Proc) :
    loadHeader map p = (.ok (), p.assign h p.vault.entries) := by
  simp only [decodeHeader, Except.bind_eq_ok] at hd
  obtain ⟨version, h1, salt, h2, key, h3, nonce, h4, hd⟩ := hd
  cases hd
  simp [loadHeader, h1, h2, h3, h4, Proc.assign]

theorem loadHeader_error {map : OrdMap Bytes Obj} {f : Fault} (hd : decodeHeader map = .error f) (p : Proc) :
    loadHeader map p = (.error f, p.assign (headerRead map p.vault.header) p.vault.entries) := by
  simp only [decodeHeader, Except.bind_eq_error, as_ok, as_error, reduceCtorEq, and_false, exists_false,
    or_false] at hd
  rcases hd with ⟨h1, rfl⟩ | ⟨version, h1, ⟨h2, rfl⟩ | ⟨salt, h2, ⟨h3, rfl⟩ | ⟨key, h3, h4, rfl⟩⟩⟩
  · simp [loadHeader, headerRead, h1, Proc.assign, as]
  · simp [loadHeader, headerRead, h1, h2, Proc.assign, as]
  · simp [loadHeader, headerRead, h1, h2, h3, Proc.assign, as]
  · simp [loadHeader, headerRead, h1, h2, h3, h4, Proc.assign, as]

theorem deserializeLoop_ok {stale : Int} {array : List Obj} {items : List Entry}
    (h : array.mapM (unpackEntry stale) = .ok items) (p : Proc) :
    deserializeLoop stale array p =
      (.ok (), p.assign p.vault.header (p.vault.entries.insertMany (items.map fun entry => (entry.id, entry)))) := by
  induction array generalizing items p with
  | nil =>
    rw [List.mapM_nil] at h
    cases h
    rfl
  | cons item array ih =>
    simp only [List.mapM_cons, Except.bind_eq_ok] at h
    obtain ⟨entry, h1, items', h2, h⟩ := h
    cases h
    simp [deserializeLoop, h1, ih h2, Proc.assign, OrdMap.insertMany]

theorem deserializeLoop_error {stale : Int} {array : List Obj} {f : Fault}
    (h : array.mapM (unpackEntry stale) = .error f) (p : Proc) :
    ∃ es, deserializeLoop stale array p = (.error f, p.assign p.vault.header es) ∧
      (Keyed p.vault.entries → Keyed es) := by
  induction array generalizing p with
  | nil =>
    rw [List.mapM_nil] at h
    cases h
  | cons item array ih =>
    simp only [List.mapM_cons, Except.bind_eq_error] at h
    rcases h with h1 | ⟨entry, h1, h2 | ⟨items, -, h⟩⟩
    · exact ⟨p.vault.entries, by simp [deserializeLoop, h1, Proc.assign], id⟩
    · obtain ⟨es, he, hk⟩ := ih h2 (p.assign p.vault.header (p.vault.entries.insert entry.id entry))
      exact ⟨es, by simpa [deserializeLoop, h1, Proc.assign] using he, fun h => hk (h.insert entry)⟩
    · cases h

theorem deserializeEntries_ok {stale : Int} {data : Bytes} {es : OrdMap Bytes Entry}
    (h : decodeEntries F stale data = .ok es) (p : Proc) :
    deserializeEntries F stale data p = (.ok (), p.assign p.vault.header es) := by
  simp only [decodeEntries, Except.bind_eq_ok] at h
  obtain ⟨obj, h1, array, h2, items, h3, h⟩ := h
  cases h
  simp [deserializeEntries, h1, h2, deserializeLoop_ok h3, Proc.assign, OrdMap.ofList]

theorem deserializeEntries_error {stale : Int} {data : Bytes} {f : Fault}
    (h : decodeEntries F stale data = .error f) (p : Proc) :
    ∃ es, deserializeEntries F stale data p = (.error f, p.assign p.vault.header es) ∧ Keyed es := by
  simp only [decodeEntries, Except.bind_eq_error, reduceCtorEq, and_false, exists_false, or_false] at h
  rcases h with h1 | ⟨obj, h1, h2 | ⟨array, h2, h3⟩⟩
  · exact ⟨∅, by simp [deserializeEntries, h1, Proc.assign], keyed_empty⟩
  · exact ⟨∅, by simp [deserializeEntries, h1, h2, Proc.assign], keyed_empty⟩
  · obtain ⟨es, he, hk⟩ := deserializeLoop_error h3 (p.assign p.vault.header ∅)
    exact ⟨es, by simpa [deserializeEntries, h1, h2, Proc.assign] using he, hk keyed_empty⟩

theorem decodeEntries_keyed {stale : Int} {data : Bytes} {es : OrdMap Bytes Entry}
    (h : decodeEntries F stale data = .ok es) : Keyed es := by
  simp only [decodeEntries, Except.bind_eq_ok] at h
  obtain ⟨obj, -, array, -, items, -, h⟩ := h
  cases h
  exact keyed_empty.insertMany items

theorem loadEntries_unlocked {dataKey : Key} (hs : p.vault.state = .unlocked) (hk : p.vault.dataKey = some dataKey)
    (map : OrdMap Bytes Obj) :
    loadEntries S F e map p = (do
      let encrypted ← Eff.lift (encryptedEntries map)
      let decrypted ← Eff.lift (decrypt S e.beyond encrypted dataKey.1)
      deserializeEntries F e.stale decrypted : Act Unit) p := by
  rw [loadEntries, Eff.bind_apply, getVault_apply]
  dsimp only
  rw [hs, hk]

theorem loadEntries_otherwise (h : ∀ dataKey, p.vault.state = .unlocked → p.vault.dataKey ≠ some dataKey)
    (map : OrdMap Bytes Obj) : loadEntries S F e map p = (.ok (), p) := by
  cases hs : p.vault.state with
  | unlocked =>
    cases hk : p.vault.dataKey with
    | none => simp [loadEntries, hs, hk]
    | some dataKey => exact absurd hk (h dataKey hs)
  | _ => simp [loadEntries, hs]

theorem loadEntries_ok {map : OrdMap Bytes Obj} {es : OrdMap Bytes Entry}
    (h : loadedEntries S F e p.vault map = .ok es) :
    loadEntries S F e map p = (.ok (), p.assign p.vault.header es) := by
  unfold loadedEntries at h
  split at h
  · next dataKey hs hk =>
    simp only [openEntries, Except.bind_eq_ok] at h
    obtain ⟨encrypted, h1, decrypted, h2, h⟩ := h
    rw [loadEntries_unlocked hs hk]
    simp [h1, h2, deserializeEntries_ok h]
  · next hn =>
    cases h
    exact loadEntries_otherwise (fun dataKey hs hk => hn dataKey hs hk) map

theorem loadEntries_error {map : OrdMap Bytes Obj} {f : Fault} (h : loadedEntries S F e p.vault map = .error f) :
    p.vault.state = .unlocked ∧ ∃ es, loadEntries S F e map p = (.error f, p.assign p.vault.header es) ∧
      (Keyed p.vault.entries → Keyed es) := by
  unfold loadedEntries at h
  split at h
  · next dataKey hs hk =>
    refine ⟨hs, ?_⟩
    rw [loadEntries_unlocked hs hk]
    simp only [openEntries, Except.bind_eq_error] at h
    rcases h with h1 | ⟨encrypted, h1, h2 | ⟨decrypted, h2, h3⟩⟩
    · exact ⟨p.vault.entries, by simp [h1, Proc.assign], id⟩
    · exact ⟨p.vault.entries, by simp [h1, h2, Proc.assign], id⟩
    · obtain ⟨es, he, hk⟩ := deserializeEntries_error h3 p
      exact ⟨es, by simpa [h1, h2] using he, fun _ => hk⟩
  · cases h

/-- `load` without its handler, from the contents of the file on. -/
def loadData (S : Sodium) (F : Format) (e : Env) (data : Bytes) : Act Bool := do
  let obj ← Eff.lift (unpack F data)
  let map ← Eff.lift (as obj.asMap)
  loadHeader map
  loadEntries S F e map
  return true

theorem loadedEntries_assign_header (h : VaultHeader) (map : OrdMap Bytes Obj) :
    loadedEntries S F e (p.assign h p.vault.entries).vault map = loadedEntries S F e p.vault map := rfl

theorem loadData_ok {data : Bytes} {h : VaultHeader} {es : OrdMap Bytes Entry}
    (hd : decodeFile S F e p.vault data = .ok (h, es)) : loadData S F e data p = (.ok true, p.assign h es) := by
  simp only [decodeFile, fileMap, Except.bind_eq_ok, Except.ok.injEq, Prod.mk.injEq] at hd
  obtain ⟨map, ⟨obj, h1, h2⟩, h, h3, es, h4, rfl, rfl⟩ := hd
  rw [← loadedEntries_assign_header h] at h4
  simp [loadData, h1, h2, loadHeader_ok h3, loadEntries_ok h4]

/-- The header `h` comes from the file, or is what it was. -/
def HeaderFrom (F : Format) (data : Bytes) (v : Vault) (h : VaultHeader) : Prop :=
  h = v.header ∨ ∃ map, fileMap F data = .ok map ∧ h = headerRead map v.header

/-- What stops `loadData`, and what it has assigned by then. -/
theorem loadData_error {data : Bytes} {f : Fault} (hf : decodeFile S F e p.vault data = .error f) :
    ∃ h es, loadData S F e data p = (.error f, p.assign h es) ∧ HeaderFrom F data p.vault h ∧
      (p.vault.state ≠ .unlocked → es = p.vault.entries) ∧ (Keyed p.vault.entries → Keyed es) := by
  simp only [decodeFile, fileMap, Except.bind_eq_error, Except.bind_eq_ok, reduceCtorEq, and_false, exists_false,
    or_false] at hf
  rcases hf with (h1 | ⟨obj, h1, h2⟩) | ⟨map, ⟨obj, h1, h2⟩, hf⟩
  · exact ⟨p.vault.header, p.vault.entries, by simp [loadData, h1], Or.inl rfl, fun _ => rfl, id⟩
  · exact ⟨p.vault.header, p.vault.entries, by simp [loadData, h1, h2], Or.inl rfl, fun _ => rfl, id⟩
  · have hmap : fileMap F data = .ok map := by rw [fileMap, h1, Except.ok_bind, h2]
    rcases hf with h3 | ⟨h, h3, h4⟩
    · exact ⟨headerRead map p.vault.header, p.vault.entries, by simp [loadData, h1, h2, loadHeader_error h3],
        Or.inr ⟨map, hmap, rfl⟩, fun _ => rfl, id⟩
    · rw [← loadedEntries_assign_header h] at h4
      obtain ⟨hs, es, hl, hk⟩ := loadEntries_error h4
      exact ⟨h, es, by simp [loadData, h1, h2, loadHeader_ok h3, hl],
        Or.inr ⟨map, hmap, (headerRead_of_decodeHeader h3 _).symm⟩, fun hn => absurd hs hn, hk⟩

theorem readFile_ok_some {fs : FS} {path : Bytes} {io : ReadIO} {data : Bytes} :
    readFile fs path io = .ok (some data) ↔ fs path = some data ∧ io = .whole := by
  unfold readFile
  cases fs path <;> cases io <;> simp

theorem load_of_read {data : Bytes} (hfs : p.fs p.vault.path = some data) (hr : e.read = .whole) :
    load S F e p = orFalse (loadData S F e data) p := by
  simp [load, orFalse_apply, readFile_ok_some.mpr ⟨hfs, hr⟩, loadData]

theorem load_of_not_read (h : ∀ data, p.fs p.vault.path = some data → e.read ≠ .whole) :
    load S F e p = (.ok false, p) := by
  rw [load, orFalse_apply]
  cases hfs : p.fs p.vault.path with
  | none => simp [readFile, hfs]
  | some data =>
    cases hr : e.read with
    | whole => exact absurd hr (h data hfs)
    | _ => simp [readFile, hfs]

/-- `load` returns true when the file can be read and decodes. -/
theorem load_ok {data : Bytes} {h : VaultHeader} {es : OrdMap Bytes Entry} (hfs : p.fs p.vault.path = some data)
    (hr : e.read = .whole) (hd : decodeFile S F e p.vault data = .ok (h, es)) :
    load S F e p = (.ok true, p.assign h es) := by
  rw [load_of_read hfs hr, orFalse_apply, loadData_ok hd]

/-- All that `load` can do: read, decode and assign, or stop with the header and the entries in some state between;
a vault that is not unlocked keeps its entries. -/
theorem load_cases (S : Sodium) (F : Format) (e : Env) (p : Proc) :
    (∃ data h es, p.fs p.vault.path = some data ∧ e.read = .whole ∧ decodeFile S F e p.vault data = .ok (h, es) ∧
      load S F e p = (.ok true, p.assign h es)) ∨
    ((∀ data h es, p.fs p.vault.path = some data → e.read = .whole → decodeFile S F e p.vault data ≠ .ok (h, es)) ∧
      ∃ r h es, load S F e p = (r, p.assign h es) ∧ (r = .ok false ∨ r = .error .trap) ∧
        (h = p.vault.header ∨
          ∃ data, p.fs p.vault.path = some data ∧ e.read = .whole ∧ HeaderFrom F data p.vault h) ∧
        (p.vault.state ≠ .unlocked → es = p.vault.entries) ∧ (Keyed p.vault.entries → Keyed es)) := by
  by_cases hread : ∃ data, p.fs p.vault.path = some data ∧ e.read = .whole
  · obtain ⟨data, hfs, hr⟩ := hread
    rcases Except.ok_or_error (decodeFile S F e p.vault data) with ⟨⟨h, es⟩, hd⟩ | ⟨f, hd⟩
    · exact Or.inl ⟨data, h, es, hfs, hr, hd, load_ok hfs hr hd⟩
    · refine Or.inr ⟨fun data' h es hfs' _ hd' => ?_, ?_⟩
      · rw [hfs, Option.some.injEq] at hfs'
        rw [← hfs', hd] at hd'
        cases hd'
      · obtain ⟨h, es, hl, hfrom, hes, hk⟩ := loadData_error hd
        rw [load_of_read hfs hr, orFalse_apply, hl]
        cases f with
        | exn f => exact ⟨_, h, es, rfl, Or.inl rfl, Or.inr ⟨data, hfs, hr, hfrom⟩, hes, hk⟩
        | trap => exact ⟨_, h, es, rfl, Or.inr rfl, Or.inr ⟨data, hfs, hr, hfrom⟩, hes, hk⟩
  · have hnot : ∀ data, p.fs p.vault.path = some data → e.read ≠ .whole := fun data hfs hr => hread ⟨data, hfs, hr⟩
    refine Or.inr ⟨fun data h es hfs hr => absurd hr (hnot data hfs), .ok false, p.vault.header, p.vault.entries, ?_,
      Or.inl rfl, Or.inl rfl, fun _ => rfl, id⟩
    rw [load_of_not_read hnot, Proc.assign_self]

theorem decodeFile_map {v : Vault} {data : Bytes} {h : VaultHeader} {es : OrdMap Bytes Entry}
    (hd : decodeFile S F e v data = .ok (h, es)) : ∃ map, fileMap F data = .ok map ∧ decodeHeader map = .ok h ∧
      loadedEntries S F e v map = .ok es := by
  simp only [decodeFile, Except.bind_eq_ok] at hd
  obtain ⟨map, hm, h', hh, es', he, hpair⟩ := hd
  obtain ⟨rfl, rfl⟩ := Prod.mk.inj (Except.ok.inj hpair)
  exact ⟨map, hm, hh, he⟩

/-- Every header that `load` leaves comes from the file, or is what it was. -/
theorem load_header (S : Sodium) (F : Format) (e : Env) (p : Proc) :
    (load S F e p).2.vault.header = p.vault.header ∨ ∃ data map, p.fs p.vault.path = some data ∧ e.read = .whole ∧
      fileMap F data = .ok map ∧ (load S F e p).2.vault.header = headerRead map p.vault.header := by
  rcases load_cases S F e p with ⟨data, h, es, hfs, hr, hd, hl⟩ | ⟨-, r, h, es, hl, -, hfrom, -⟩ <;> rw [hl]
  · obtain ⟨map, hm, hh, -⟩ := decodeFile_map hd
    exact Or.inr ⟨data, map, hfs, hr, hm, (headerRead_of_decodeHeader hh _).symm⟩
  · rcases hfrom with hfrom | ⟨data, hfs, hr, hfrom | ⟨map, hm, hfrom⟩⟩
    · exact Or.inl hfrom
    · exact Or.inl hfrom
    · exact Or.inr ⟨data, map, hfs, hr, hm, hfrom⟩

theorem load_state (p : Proc) : (load S F e p).2.vault.state = p.vault.state := by
  rcases load_cases S F e p with ⟨data, h, es, -, -, -, hl⟩ | ⟨-, r, h, es, hl, -⟩ <;> rw [hl, Proc.state_assign]

/-- Only an unlocked vault takes entries from a file. -/
theorem decodeFile_entries {v : Vault} {data : Bytes} {h : VaultHeader} {es : OrdMap Bytes Entry}
    (hd : decodeFile S F e v data = .ok (h, es)) :
    (v.state ≠ .unlocked → es = v.entries) ∧ (Keyed v.entries → Keyed es) := by
  obtain ⟨map, -, -, he⟩ := decodeFile_map hd
  unfold loadedEntries at he
  split at he
  · next dataKey hu _ =>
    simp only [openEntries, Except.bind_eq_ok] at he
    obtain ⟨encrypted, -, decrypted, -, he⟩ := he
    exact ⟨(absurd hu ·), fun _ => decodeEntries_keyed he⟩
  · cases he
    exact ⟨fun _ => rfl, id⟩

theorem load_keyed (h : Keyed p.vault.entries) : Keyed (load S F e p).2.vault.entries := by
  rcases load_cases S F e p with ⟨data, hd, es, -, -, hdec, hl⟩ | ⟨-, r, hd, es, hl, -, -, -, hk⟩ <;> rw [hl]
  · exact (decodeFile_entries hdec).2 h
  · exact hk h

/-- The file cannot be read, or an exception stops decoding it. -/
def LoadFails (S : Sodium) (F : Format) (e : Env) (p : Proc) : Prop :=
  (∀ data, p.fs p.vault.path = some data → e.read ≠ .whole) ∨
    ∃ data x, p.fs p.vault.path = some data ∧ e.read = .whole ∧ decodeFile S F e p.vault data = .error (.exn x)

theorem load_false_iff : (load S F e p).1 = .ok false ↔ LoadFails S F e p := by
  by_cases hread : ∃ data, p.fs p.vault.path = some data ∧ e.read = .whole
  · obtain ⟨data, hfs, hr⟩ := hread
    have hiff : LoadFails S F e p ↔ ∃ x, decodeFile S F e p.vault data = .error (.exn x) := by
      constructor
      · rintro (h | ⟨data', x, hfs', -, hd⟩)
        · exact absurd hr (h data hfs)
        · rw [hfs, Option.some.injEq] at hfs'
          exact ⟨x, hfs' ▸ hd⟩
      · exact fun ⟨x, hd⟩ => Or.inr ⟨data, x, hfs, hr, hd⟩
    rw [hiff]
    rcases Except.ok_or_error (decodeFile S F e p.vault data) with ⟨⟨h, es⟩, hd⟩ | ⟨f, hd⟩
    · rw [load_ok hfs hr hd, hd]
      simp
    · obtain ⟨h, es, hl, -⟩ := loadData_error hd
      rw [load_of_read hfs hr, orFalse_apply, hl, hd]
      cases f <;> simp
  · have hnot : ∀ data, p.fs p.vault.path = some data → e.read ≠ .whole := fun data hfs hr => hread ⟨data, hfs, hr⟩
    rw [load_of_not_read hnot]
    exact ⟨fun _ => Or.inl hnot, fun _ => rfl⟩

/-! ## Creating, opening, locking -/

end Vault

def Proc.withPath (p : Proc) (path : Bytes) : Proc := { p with vault := { p.vault with path := path } }

def Proc.withState (p : Proc) (s : VaultState) : Proc := { p with vault := { p.vault with state := s } }

theorem Proc.withState_self {p : Proc} {s : VaultState} (h : p.vault.state = s) : p.withState s = p := by
  subst h
  rfl

/-- Unlocked under a master key and a data key. -/
def Proc.withKeys (p : Proc) (masterKey dataKey : Key) : Proc :=
  { p with vault := { p.vault with masterKey := some masterKey, dataKey := some dataKey, state := .unlocked } }

/-- The wrapped data key in the header replaced. -/
def VaultHeader.rewrap (h : VaultHeader) (S : Sodium) (masterKey dataKey : Key) (nonce : Nonce) : VaultHeader :=
  { h with encryptedDataKey := S.easy masterKey nonce dataKey.1, dataKeyNonce := nonce.1 }

namespace Vault

variable {path passphrase : Bytes}

def created (S : Sodium) (e : Env) (p : Proc) (path : Bytes) (derived : DerivedKey) : Proc :=
  (p.withKeys derived.key e.dataKey |>.withPath path).assign
    ((VaultHeader.mk 1 derived.salt [] []).rewrap S derived.key e.dataKey e.keyNonce) p.vault.entries

theorem create_refused {f : Fault} (hs : p.vault.state = .uninitialized)
    (hd : deriveMasterKey S e.salt e.alloc e.beyond passphrase [] = .error f) :
    create S F e path passphrase p = (.error f, p.withPath path) := by
  simp [create, hs, hd, Proc.withPath]

theorem create_derived {d : DerivedKey} (hs : p.vault.state = .uninitialized)
    (hd : deriveMasterKey S e.salt e.alloc e.beyond passphrase [] = .ok d) :
    create S F e path passphrase p = save S F e (created S e p path d) := by
  simp [create, hs, hd, encrypt_key, created, Proc.withKeys, Proc.withPath, Proc.assign, VaultHeader.rewrap]

theorem create_cases (S : Sodium) (F : Format) (e : Env) (p : Proc) (path passphrase : Bytes) :
    (p.vault.state ≠ .uninitialized ∧ create S F e path passphrase p = (.ok false, p)) ∨
    (p.vault.state = .uninitialized ∧ ∃ f, deriveMasterKey S e.salt e.alloc e.beyond passphrase [] = .error f ∧
      create S F e path passphrase p = (.error f, p.withPath path)) ∨
    (p.vault.state = .uninitialized ∧ ∃ derived, deriveMasterKey S e.salt e.alloc e.beyond passphrase [] = .ok derived ∧
      create S F e path passphrase p = save S F e (created S e p path derived)) := by
  by_cases hs : p.vault.state = .uninitialized
  · right
    rcases Except.ok_or_error (deriveMasterKey S e.salt e.alloc e.beyond passphrase []) with ⟨d, hd⟩ | ⟨f, hd⟩
    · exact Or.inr ⟨hs, d, hd, create_derived hs hd⟩
    · exact Or.inl ⟨hs, f, hd, create_refused hs hd⟩
  · exact Or.inl ⟨hs, by simp [create, hs]⟩

theorem open_cases (S : Sodium) (F : Format) (e : Env) (p : Proc) (path : Bytes) :
    (p.vault.state ≠ .uninitialized ∧ «open» S F e path p = (.ok false, p)) ∨
    (p.vault.state = .uninitialized ∧ ∃ p', load S F e (p.withPath path) = (.ok true, p') ∧
      «open» S F e path p = (.ok true, p'.withState .locked)) ∨
    (p.vault.state = .uninitialized ∧ ∃ r p', load S F e (p.withPath path) = (r, p') ∧ r ≠ .ok true ∧
      «open» S F e path p = (r, p')) := by
  by_cases hs : p.vault.state = .uninitialized
  · right
    have hopen : «open» S F e path p = (do
        let loaded ← load S F e
        if ¬ loaded then return false
        setVault fun v => { v with state := .locked }
        return true : Act Bool) (p.withPath path) := by
      simp only [«open», Eff.bind_apply, getVault_apply, hs, ne_eq, not_true_eq_false, if_false]
      rfl
    rw [hopen, Eff.bind_apply]
    rcases load S F e (p.withPath path) with ⟨f | (_ | _), p'⟩
    · exact Or.inr ⟨hs, _, p', rfl, by simp, rfl⟩
    · exact Or.inr ⟨hs, _, p', rfl, by simp, rfl⟩
    · exact Or.inl ⟨hs, p', rfl, rfl⟩
  · exact Or.inl ⟨hs, by simp [«open», hs]⟩

theorem orFalse_load : orFalse (load S F e) = load S F e := orFalse_orFalse _

/-- The data key that the header's wrapped key opens to. -/
def unwrap (S : Sodium) (e : Env) (h : VaultHeader) (masterKey : Key) : Except Fault Bytes :=
  decrypt S e.beyond ⟨h.encryptedDataKey, h.dataKeyNonce, []⟩ masterKey.1

/-- Past the wrapped key, `unlock` is `load` with the keys in place. -/
theorem unlock_loads {derived : DerivedKey} {b : Bytes} {dataKey : Key} (hs : p.vault.state = .locked)
    (hd : deriveMasterKey S e.salt e.alloc e.beyond passphrase p.vault.header.salt = .ok derived)
    (hb : unwrap S e p.vault.header derived.key = .ok b) (hk : copyInto e.beyond DATA_KEY_SIZE b = .ok dataKey) :
    unlock S F e passphrase p = load S F e (p.withKeys derived.key dataKey) := by
  rw [← orFalse_load]
  rw [unwrap] at hb
  simp [unlock, hs, hd, hb, hk, orFalse_apply, Proc.withKeys]

theorem unlock_cases (S : Sodium) (F : Format) (e : Env) (p : Proc) (passphrase : Bytes) :
    (p.vault.state ≠ .locked ∧ unlock S F e passphrase p = (.ok false, p)) ∨
    (p.vault.state = .locked ∧ ∃ f, deriveMasterKey S e.salt e.alloc e.beyond passphrase p.vault.header.salt = .error f ∧
      unlock S F e passphrase p = (.error f, p)) ∨
    (p.vault.state = .locked ∧
      ∃ derived, deriveMasterKey S e.salt e.alloc e.beyond passphrase p.vault.header.salt = .ok derived ∧
      ((∃ x, unwrap S e p.vault.header derived.key = .error (.exn x) ∧ unlock S F e passphrase p = (.ok false, p)) ∨
      (∃ p', unlock S F e passphrase p = (.error .trap, p')) ∨
      (∃ b dataKey, unwrap S e p.vault.header derived.key = .ok b ∧ copyInto e.beyond DATA_KEY_SIZE b = .ok dataKey ∧
        unlock S F e passphrase p = load S F e (p.withKeys derived.key dataKey)))) := by
  by_cases hs : p.vault.state = .locked
  · right
    rcases Except.ok_or_error (deriveMasterKey S e.salt e.alloc e.beyond passphrase p.vault.header.salt) with
      ⟨d, hd⟩ | ⟨f, hd⟩
    · refine Or.inr ⟨hs, d, hd, ?_⟩
      rcases Except.ok_or_error (unwrap S e p.vault.header d.key) with ⟨b, hb⟩ | ⟨f, hb⟩
      · have hb' := hb
        rw [unwrap] at hb'
        rcases Except.ok_or_error (copyInto e.beyond DATA_KEY_SIZE b) with ⟨k, hk⟩ | ⟨f, hk⟩
        · exact Or.inr (Or.inr ⟨b, k, hb, hk, unlock_loads hs hd hb hk⟩)
        · -- a copy fails only by running past the end of the buffer
          have hf : f = .trap := by
            unfold copyInto at hk
            split_ifs at hk
            split at hk
            · exact (Except.error.inj hk).symm
            · cases hk
          subst hf
          exact Or.inr (Or.inl ⟨_, by simp [unlock, hs, hd, hb', hk, orFalse_apply]; rfl⟩)
      · have hb' := hb
        rw [unwrap] at hb'
        cases f with
        | exn x => exact Or.inl ⟨x, hb, by simp [unlock, hs, hd, hb', orFalse_apply]⟩
        | trap => exact Or.inr (Or.inl ⟨_, by simp [unlock, hs, hd, hb', orFalse_apply]; rfl⟩)
    · exact Or.inl ⟨hs, f, hd, by simp [unlock, hs, hd]⟩
  · exact Or.inl ⟨hs, by simp [unlock, hs]⟩

/-- Everything secret gone. -/
def locked (p : Proc) : Proc :=
  { p with vault := { p.vault with masterKey := none, dataKey := none, entries := ∅, state := .locked } }

theorem lock_apply (p : Proc) : lock p = (.ok (), if p.vault.state = .unlocked then locked p else p) := by
  by_cases hs : p.vault.state = .unlocked <;> simp [lock, hs, locked]

theorem ensureUnlocked_apply (p : Proc) : ensureUnlocked p =
    (if p.vault.state = .unlocked then .ok () else .error (.exn (.runtimeError "Vault is locked")), p) := by
  by_cases hs : p.vault.state = .unlocked <;> simp [ensureUnlocked, hs]

/-- The state in which `rekey` comes to save. -/
def rekeyed (S : Sodium) (e : Env) (p : Proc) (masterKey newDataKey : Key) : Proc :=
  (p.withKeys masterKey newDataKey).assign (p.vault.header.rewrap S masterKey newDataKey e.keyNonce) p.vault.entries

theorem rekey_wraps {newDataKey : Bytes} {dk mk : Key} (hs : p.vault.state = .unlocked)
    (hlen : newDataKey.length = DATA_KEY_SIZE) (hd : p.vault.dataKey = some dk) (hm : p.vault.masterKey = some mk) :
    rekey S F e newDataKey p = save S F e (rekeyed S e p mk ⟨newDataKey, hlen⟩) := by
  have henc := encrypt_key (S := S) e.keyNonce newDataKey mk
  simp [rekey, ensureUnlocked_apply, hs, hlen, hd, hm, deref, henc, rekeyed, Proc.withKeys, Proc.assign,
    VaultHeader.rewrap]

theorem rekey_cases (S : Sodium) (F : Format) (e : Env) (p : Proc) (newDataKey : Bytes) :
    (p.vault.state ≠ .unlocked ∧
      rekey S F e newDataKey p = (.error (.exn (.runtimeError "Vault is locked")), p)) ∨
    (p.vault.state = .unlocked ∧ newDataKey.length ≠ DATA_KEY_SIZE ∧ rekey S F e newDataKey p = (.ok false, p)) ∨
    (p.vault.state = .unlocked ∧ ∃ p', rekey S F e newDataKey p = (.error .trap, p')) ∨
    (p.vault.state = .unlocked ∧ ∃ masterKey h, p.vault.masterKey = some masterKey ∧
      rekey S F e newDataKey p = save S F e (rekeyed S e p masterKey ⟨newDataKey, h⟩)) := by
  by_cases hs : p.vault.state = .unlocked
  · right
    by_cases hlen : newDataKey.length = DATA_KEY_SIZE
    · right
      cases hd : p.vault.dataKey with
      | none => exact Or.inl ⟨hs, _, by simp [rekey, ensureUnlocked_apply, hs, hlen, hd, deref]; rfl⟩
      | some dk =>
        cases hm : p.vault.masterKey with
        | none => exact Or.inl ⟨hs, _, by simp [rekey, ensureUnlocked_apply, hs, hlen, hd, hm, deref]; rfl⟩
        | some mk => exact Or.inr ⟨hs, mk, hlen, rfl, rekey_wraps hs hlen hd hm⟩
    · exact Or.inl ⟨hs, hlen, by simp [rekey, ensureUnlocked_apply, hs, hlen]⟩
  · exact Or.inl ⟨hs, by simp [rekey, ensureUnlocked_apply, hs]⟩

/-! ## Entries -/

/-- What a call that needs an unlocked vault throws. -/
def lockedError : Fault := .exn (.runtimeError "Vault is locked")

section Unlocked

variable {p : Proc} {e : Env} {id tag query : Bytes} {entry : Entry} (hs : p.vault.state = .unlocked)

include hs

theorem addEntry_unlocked : addEntry e entry p =
    (.ok (generateId e.id), p.assign p.vault.header (p.vault.entries.insert (generateId e.id)
      { entry with id := generateId e.id, created := e.now, modified := e.now })) := by
  simp [addEntry, ensureUnlocked_apply, hs, Proc.assign]

theorem updateEntry_none (hf : p.vault.entries.find? id = none) : updateEntry e id entry p = (.ok false, p) := by
  simp [updateEntry, ensureUnlocked_apply, hs, hf]

theorem updateEntry_some {old : Entry} (hf : p.vault.entries.find? id = some old) : updateEntry e id entry p =
    (.ok true, p.assign p.vault.header
      (p.vault.entries.insert id { entry with id := id, created := old.created, modified := e.now })) := by
  simp [updateEntry, ensureUnlocked_apply, hs, hf, Proc.assign]

theorem deleteEntry_unlocked : deleteEntry id p =
    (.ok (p.vault.entries.find? id).isSome, p.assign p.vault.header (p.vault.entries.erase id)) := by
  simp [deleteEntry, ensureUnlocked_apply, hs, Proc.assign]

theorem getEntry_unlocked : getEntry id p = (match p.vault.entries.find? id with
    | some entry => .ok entry
    | none => .error (.exn (.runtimeError "Entry not found")), p) := by
  cases hf : p.vault.entries.find? id <;> simp [getEntry, ensureUnlocked_apply, hs, hf]

theorem listEntries_unlocked : listEntries p = (.ok (p.vault.entries.toList.map Prod.snd), p) := by
  simp [listEntries, ensureUnlocked_apply, hs]

theorem search_unlocked : search query p = (.ok ((p.vault.entries.toList.map Prod.snd).filter fun entry =>
    contains entry.name query || contains entry.username query), p) := by
  simp [search, ensureUnlocked_apply, hs]

theorem searchByTag_unlocked : searchByTag tag p = (.ok ((p.vault.entries.toList.map Prod.snd).filter fun entry =>
    entry.tags.contains tag), p) := by
  simp [searchByTag, ensureUnlocked_apply, hs]

end Unlocked

end Vault

/-- The operations that begin with `ensure_unlocked`. -/
def Op.needsUnlocked : Op → Bool
  | .rekey _ | .addEntry _ | .updateEntry _ _ | .deleteEntry _ | .getEntry _ | .listEntries | .search _
  | .searchByTag _ => true
  | _ => false

/-- Without an unlocked vault these operations throw and change nothing. -/
theorem exec_locked {S : Sodium} {F : Format} {e : Env} {p : Proc} {op : Op} (hop : op.needsUnlocked)
    (hs : p.vault.state ≠ .unlocked) : exec S F e op p = (.error Vault.lockedError, p) := by
  cases op <;> simp only [Op.needsUnlocked, Bool.false_eq_true] at hop <;>
    simp [exec, Vault.rekey, Vault.addEntry, Vault.updateEntry, Vault.deleteEntry, Vault.getEntry,
      Vault.listEntries, Vault.search, Vault.searchByTag, Vault.ensureUnlocked_apply, hs, Vault.lockedError]

/-- The operations on the entries in memory. -/
def Op.onEntries : Op → Bool
  | .addEntry _ | .updateEntry _ _ | .deleteEntry _ | .getEntry _ | .listEntries | .search _ | .searchByTag _ => true
  | _ => false

theorem Op.needsUnlocked_of_onEntries {op : Op} (hop : op.onEntries) : op.needsUnlocked := by
  cases op <;> first | rfl | cases hop

/-- What an operation on the entries `es` of an unlocked vault returns, and what it makes of them. -/
def Op.outcome (e : Env) (es : OrdMap Bytes Entry) : Op → Except Fault Reply × OrdMap Bytes Entry
  | .addEntry entry => (.ok (.id (Vault.generateId e.id)), es.insert (Vault.generateId e.id)
      { entry with id := Vault.generateId e.id, created := e.now, modified := e.now })
  | .updateEntry id entry => match es.find? id with
    | none => (.ok (.bool false), es)
    | some old => (.ok (.bool true), es.insert id { entry with id := id, created := old.created, modified := e.now })
  | .deleteEntry id => (.ok (.bool (es.find? id).isSome), es.erase id)
  | .getEntry id => match es.find? id with
    | none => (.error (.exn (.runtimeError "Entry not found")), es)
    | some entry => (.ok (.entry entry), es)
  | .listEntries => (.ok (.entries (es.toList.map Prod.snd)), es)
  | .search query => (.ok (.entries ((es.toList.map Prod.snd).filter fun entry =>
      Vault.contains entry.name query || Vault.contains entry.username query)), es)
  | .searchByTag tag => (.ok (.entries ((es.toList.map Prod.snd).filter fun entry => entry.tags.contains tag)), es)
  | _ => (.ok .unit, es)

theorem exec_onEntries {S : Sodium} {F : Format} {p : Proc} {op : Op} (hop : op.onEntries)
    (hs : p.vault.state = .unlocked) (e : Env) :
    exec S F e op p = ((op.outcome e p.vault.entries).1, p.assign p.vault.header (op.outcome e p.vault.entries).2) := by
  cases op with
  | addEntry entry =>
    rw [exec, Eff.map_apply, Vault.addEntry_unlocked hs]
    rfl
  | updateEntry id entry =>
    cases hf : p.vault.entries.find? id with
    | none =>
      rw [exec, Eff.map_apply, Vault.updateEntry_none hs hf]
      simp [Op.outcome, hf]
    | some old =>
      rw [exec, Eff.map_apply, Vault.updateEntry_some hs hf]
      simp [Op.outcome, hf]
  | deleteEntry id =>
    rw [exec, Eff.map_apply, Vault.deleteEntry_unlocked hs]
    rfl
  | getEntry id =>
    rw [exec, Eff.map_apply, Vault.getEntry_unlocked hs]
    cases hf : p.vault.entries.find? id <;> simp [Op.outcome, hf]
  | listEntries =>
    rw [exec, Eff.map_apply, Vault.listEntries_unlocked hs]
    rfl
  | search query =>
    rw [exec, Eff.map_apply, Vault.search_unlocked hs]
    rfl
  | searchByTag tag =>
    rw [exec, Eff.map_apply, Vault.searchByTag_unlocked hs]
    rfl
  | _ => cases hop

theorem Op.outcome_ne_trap (op : Op) (e : Env) (es : OrdMap Bytes Entry) : (op.outcome e es).1 ≠ .error .trap := by
  unfold Op.outcome
  split <;> (try split) <;> simp

theorem Op.outcome_keyed (op : Op) (e : Env) {es : OrdMap Bytes Entry} (h : Keyed es) : Keyed (op.outcome e es).2 := by
  cases op with
  | addEntry entry => exact h.insert { entry with id := Vault.generateId e.id, created := e.now, modified := e.now }
  | updateEntry id entry =>
    cases hf : es.find? id with
    | none => simpa only [Op.outcome, hf] using h
    | some old =>
      simpa only [Op.outcome, hf] using h.insert { entry with id := id, created := old.created, modified := e.now }
  | deleteEntry id => exact h.erase id
  | getEntry id => cases hf : es.find? id <;> simpa only [Op.outcome, hf] using h
  | _ => exact h

/-! ## Calls -/

/-- All that a call can make of the object and the files, unless a bad access stops it. -/
inductive Effect (S : Sodium) (F : Format) (e : Env) (p : Proc) : Op → Proc → Prop
  | stay {op : Op} : Effect S F e p op p
  | entries {op : Op} (hop : op.onEntries) (hs : p.vault.state = .unlocked) :
      Effect S F e p op (p.assign p.vault.header (op.outcome e p.vault.entries).2)
  | aim {path passphrase : Bytes} (hs : p.vault.state = .uninitialized) :
      Effect S F e p (.create path passphrase) (p.withPath path)
  | create {path passphrase : Bytes} {derived : DerivedKey} (hs : p.vault.state = .uninitialized)
      (hd : deriveMasterKey S e.salt e.alloc e.beyond passphrase [] = .ok derived) :
      Effect S F e p (.create path passphrase) (Vault.save S F e (Vault.created S e p path derived)).2
  | open {path : Bytes} {s : VaultState} (hs : p.vault.state = .uninitialized) (hstate : s ≠ .unlocked) :
      Effect S F e p (.open path) ((Vault.load S F e (p.withPath path)).2.withState s)
  | unlock {passphrase b : Bytes} {derived : DerivedKey} {dataKey : Key} (hs : p.vault.state = .locked)
      (hd : deriveMasterKey S e.salt e.alloc e.beyond passphrase p.vault.header.salt = .ok derived)
      (hb : Vault.unwrap S e p.vault.header derived.key = .ok b) (hk : copyInto e.beyond DATA_KEY_SIZE b = .ok dataKey) :
      Effect S F e p (.unlock passphrase) (Vault.load S F e (p.withKeys derived.key dataKey)).2
  | lock (hs : p.vault.state = .unlocked) : Effect S F e p .lock (Vault.locked p)
  | load : Effect S F e p .load (Vault.load S F e p).2
  | save (hs : p.vault.state = .unlocked) : Effect S F e p .save (Vault.save S F e p).2
  | rekey {newDataKey : Bytes} {masterKey : Key} (hlen : newDataKey.length = DATA_KEY_SIZE)
      (hs : p.vault.state = .unlocked) (hm : p.vault.masterKey = some masterKey) :
      Effect S F e p (.rekey newDataKey) (Vault.save S F e (Vault.rekeyed S e p masterKey ⟨newDataKey, hlen⟩)).2

theorem exec_effect {S : Sodium} {F : Format} {e : Env} {p : Proc} {op : Op} (hr : (exec S F e op p).1 ≠ .error .trap) :
    Effect S F e p op (exec S F e op p).2 := by
  by_cases hop : op.needsUnlocked ∧ p.vault.state ≠ .unlocked
  · rw [exec_locked hop.1 hop.2]
    exact .stay
  have hun : op.needsUnlocked → p.vault.state = .unlocked := fun hn => by_contra fun hs => hop ⟨hn, hs⟩
  by_cases hen : op.onEntries
  · have hs := hun (Op.needsUnlocked_of_onEntries hen)
    rw [exec_onEntries hen hs]
    exact .entries hen hs
  cases op with
  | create path passphrase =>
    rw [exec, Eff.map_apply_snd]
    rcases Vault.create_cases S F e p path passphrase with ⟨-, hc⟩ | ⟨hs, f, -, hc⟩ | ⟨hs, d, hd, hc⟩ <;> rw [hc]
    · exact .stay
    · exact .aim hs
    · exact .create hs hd
  | «open» path =>
    rw [exec, Eff.map_apply_snd]
    rcases Vault.open_cases S F e p path with ⟨-, ho⟩ | ⟨hs, p', hp', ho⟩ | ⟨hs, r, p', hp', -, ho⟩ <;> rw [ho]
    · exact .stay
    · have hopen := @Effect.open S F e p path .locked hs (by decide)
      rwa [hp'] at hopen
    · have hopen := @Effect.open S F e p path .uninitialized hs (by decide)
      have hstate : p'.vault.state = .uninitialized := by
        have hl := Vault.load_state (S := S) (F := F) (e := e) (p.withPath path)
        rw [hp'] at hl
        exact hl.trans hs
      rw [hp'] at hopen
      rwa [Proc.withState_self hstate] at hopen
  | unlock passphrase =>
    have hr : (Vault.unlock S F e passphrase p).1 ≠ .error .trap := fun ht => hr (by rwa [exec, Eff.map_apply_error])
    rw [exec, Eff.map_apply_snd]
    rcases Vault.unlock_cases S F e p passphrase with
      ⟨-, hu⟩ | ⟨-, f, -, hu⟩ | ⟨hs, d, hd, ⟨x, -, hu⟩ | ⟨p', hu⟩ | ⟨b, dk, hb, hk, hu⟩⟩ <;> rw [hu] at hr ⊢
    · exact .stay
    · exact .stay
    · exact .stay
    · exact absurd rfl hr
    · exact .unlock hs hd hb hk
  | lock =>
    rw [exec, Eff.map_apply_snd, Vault.lock_apply]
    dsimp only
    split_ifs with hs
    · exact .lock hs
    · exact .stay
  | load =>
    rw [exec, Eff.map_apply_snd]
    exact .load
  | save =>
    rw [exec, Eff.map_apply_snd]
    by_cases hs : p.vault.state = .unlocked
    · exact .save hs
    · rw [Vault.save_locked hs]
      exact .stay
  | rekey newDataKey =>
    have hr : (Vault.rekey S F e newDataKey p).1 ≠ .error .trap := fun ht => hr (by rwa [exec, Eff.map_apply_error])
    rw [exec, Eff.map_apply_snd]
    rcases Vault.rekey_cases S F e p newDataKey with ⟨-, hk⟩ | ⟨-, -, hk⟩ | ⟨-, p', hk⟩ | ⟨hs, mk, hlen, hm, hk⟩ <;>
      rw [hk] at hr ⊢
    · exact .stay
    · exact .stay
    · exact absurd rfl hr
    · exact .rekey hlen hs hm
  | _ => exact absurd rfl hen

theorem Proc.step_call {S : Sodium} {F : Format} {e : Env} {p p' : Proc} {op : Op} : p.step S F (.call e op) = some p' ↔
    (exec S F e op p).1 ≠ .error .trap ∧ (exec S F e op p).2 = p' := by
  rw [Proc.step]
  rcases exec S F e op p with ⟨(_ | _) | _, _⟩ <;> simp

end Passdoq
