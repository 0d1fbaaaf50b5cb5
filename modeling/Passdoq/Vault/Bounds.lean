import Passdoq.Vault.Persistence

/-!
# What unlocking a file hands to the primitives

The header of a file that opened, and the nonce of its entries, have any length. `unlockCalls` is the list of the
calls that `unlock` makes to primitives of a fixed size.

* `unlock_trap` : where nothing lies beyond a buffer, `unlock` is stopped exactly by a call that is out of bounds;
* `unlock_sized` : for which files every call is of the right size.
-/

namespace Passdoq
open Msgpack Crypto Vault

variable {S : Sodium} {F : Format} {e : Env} {p : Proc} {passphrase : Bytes}

/-- A call of a primitive of a fixed size: what it reads, or what is copied into the buffer of the data key. -/
inductive Primitive
  | pwhash (salt : Bytes)
  | openEasy (nonce : Bytes)
  | copyKey (dataKey : Bytes)

/-- The size is the one that the primitive is made for. -/
def Primitive.Sized : Primitive → Prop
  | .pwhash salt => SALT_SIZE ≤ salt.length
  | .openEasy nonce => NONCE_SIZE ≤ nonce.length
  | .copyKey dataKey => dataKey.length = DATA_KEY_SIZE

/-- The call reads or writes past the end of a buffer. -/
def Primitive.OutOfBounds : Primitive → Prop
  | .pwhash salt => salt.length < SALT_SIZE
  | .openEasy nonce => nonce.length < NONCE_SIZE
  | .copyKey dataKey => DATA_KEY_SIZE < dataKey.length

namespace Vault

def deriveMasterKeyCalls (fresh : Salt) (salt : Bytes) : List Primitive := [.pwhash (if salt = [] then fresh.1 else salt)]

/-- The calls of `decrypt` under a key of the right size. -/
def decryptCalls (encrypted : EncryptedData) : List Primitive :=
  if encrypted.ciphertext.length < MAC_SIZE then [] else [.openEasy encrypted.nonce]

/-- The encrypted entries that a `load` comes to decrypt. -/
def entriesToOpen (F : Format) (e : Env) (p : Proc) : Except Fault EncryptedData := do
  match ← readFile p.fs p.vault.path e.read with
  | none => .error (.exn .iosFailure)
  | some data =>
    let map ← fileMap F data
    let _ ← decodeHeader map
    encryptedEntries map

/-- The calls of `load` in an unlocked vault. -/
def loadCalls (F : Format) (e : Env) (p : Proc) : List Primitive :=
  match entriesToOpen F e p with
  | .ok encrypted => decryptCalls encrypted
  | .error _ => []

/-- The calls of `unlock` once the wrapped key is open. -/
def openedCalls (F : Format) (e : Env) (p : Proc) (dataKey : Bytes) : List Primitive :=
  .copyKey dataKey :: match copyInto e.beyond DATA_KEY_SIZE dataKey with
    | .ok _ => loadCalls F e p
    | .error _ => []

/-- The calls of `unlock` of a locked vault, in order. -/
def unlockCalls (S : Sodium) (F : Format) (e : Env) (passphrase : Bytes) (p : Proc) : List Primitive :=
  let h := p.vault.header
  deriveMasterKeyCalls e.salt h.salt ++ match deriveMasterKey S e.salt e.alloc e.beyond passphrase h.salt with
    | .error _ => []
    | .ok derived =>
      decryptCalls ⟨h.encryptedDataKey, h.dataKeyNonce, []⟩ ++ match unwrap S e h derived.key with
        | .error _ => []
        | .ok dataKey => openedCalls F e p dataKey

/-! ## The calls are those of the model -/

theorem as_ne_trap {α : Type} (x : Option α) : as x ≠ .error .trap := by cases x <;> nofun

theorem unpack_ne_trap (data : Bytes) : unpack F data ≠ .error .trap := by
  unfold unpack
  cases F.unpack data <;> nofun

theorem fileMap_ne_trap (data : Bytes) : fileMap F data ≠ .error .trap :=
  bind_ne_trap (unpack_ne_trap data) fun _ => as_ne_trap _

theorem decodeHeader_ne_trap (map : OrdMap Bytes Obj) : decodeHeader map ≠ .error .trap :=
  bind_ne_trap (as_ne_trap _) fun _ => bind_ne_trap (as_ne_trap _) fun _ => bind_ne_trap (as_ne_trap _) fun _ =>
    bind_ne_trap (as_ne_trap _) fun _ => nofun

theorem encryptedEntries_ne_trap (map : OrdMap Bytes Obj) : encryptedEntries map ≠ .error .trap :=
  bind_ne_trap (as_ne_trap _) fun _ => bind_ne_trap (as_ne_trap _) fun _ => bind_ne_trap (as_ne_trap _) fun _ => nofun

theorem unpackEntry_ne_trap (stale : Int) (item : Obj) : unpackEntry stale item ≠ .error .trap := by
  unfold unpackEntry
  iterate 9 refine bind_ne_trap (as_ne_trap _) fun _ => ?_
  nofun

theorem mapM_ne_trap {α β : Type} {f : α → Except Fault β} (h : ∀ a, f a ≠ .error .trap) (l : List α) :
    l.mapM f ≠ .error .trap := by
  induction l with
  | nil => nofun
  | cons a l ih =>
    rw [List.mapM_cons]
    exact bind_ne_trap (h a) fun _ => bind_ne_trap ih fun _ => nofun

theorem decodeEntries_ne_trap (stale : Int) (data : Bytes) : decodeEntries F stale data ≠ .error .trap :=
  bind_ne_trap (unpack_ne_trap data) fun _ => bind_ne_trap (as_ne_trap _) fun _ =>
    bind_ne_trap (mapM_ne_trap (unpackEntry_ne_trap stale) _) fun _ => nofun

theorem readFixed_trap {n : Nat} {b : Bytes} {beyond : Option Bytes} :
    readFixed beyond n b = .error .trap ↔ beyond = none ∧ b.length < n := by
  unfold readFixed
  by_cases h : n ≤ b.length
  · simp [h]
  · cases beyond <;> simp [h, Nat.not_le.mp h]

theorem copyInto_trap {n : Nat} {b : Bytes} {beyond : Option Bytes} :
    copyInto beyond n b = .error .trap ↔ beyond = none ∧ n < b.length := by
  unfold copyInto
  by_cases h : b.length ≤ n
  · simp [h]
  · cases beyond <;> simp [h, Nat.not_le.mp h]

theorem deriveMasterKey_trap (salt : Bytes) :
    deriveMasterKey S e.salt e.alloc none passphrase salt = .error .trap ↔
      ∃ c ∈ deriveMasterKeyCalls e.salt salt, c.OutOfBounds := by
  have hcalls : (∃ c ∈ deriveMasterKeyCalls e.salt salt, c.OutOfBounds) ↔
      (if salt = [] then e.salt.1 else salt).length < SALT_SIZE := by
    simp [deriveMasterKeyCalls, Primitive.OutOfBounds]
  rw [hcalls, deriveMasterKey, Except.bind_eq_error, readFixed_trap]
  cases e.alloc <;> simp

theorem decrypt_trap (encrypted : EncryptedData) (key : Key) :
    decrypt S none encrypted key.1 = .error .trap ↔ ∃ c ∈ decryptCalls encrypted, c.OutOfBounds := by
  rw [decrypt, dif_pos key.2, decryptCalls]
  split_ifs with hmac
  · simp
  · simp only [Except.bind_eq_error, readFixed_trap, List.mem_singleton, exists_eq_left, Primitive.OutOfBounds, true_and]
    refine or_iff_left ?_
    rintro ⟨nonce, -, h⟩
    cases hopen : S.openEasy ⟨key.1, key.2⟩ nonce encrypted.ciphertext <;> simp [hopen] at h

theorem entriesToOpen_of_read {data : Bytes} (hfs : p.fs p.vault.path = some data) (hr : e.read = .whole) :
    entriesToOpen F e p = (do
      let map ← fileMap F data
      let _ ← decodeHeader map
      encryptedEntries map) := by
  rw [entriesToOpen, readFile_ok_some.mpr ⟨hfs, hr⟩]
  rfl

theorem entriesToOpen_of_not_read (h : ∀ data, p.fs p.vault.path = some data → e.read ≠ .whole)
    (encrypted : EncryptedData) : entriesToOpen F e p ≠ .ok encrypted := by
  intro hopen
  obtain ⟨file, hfile, hopen⟩ := Except.bind_eq_ok.mp hopen
  cases file with
  | none => cases hopen
  | some data => exact h data (readFile_ok_some.mp hfile).1 (readFile_ok_some.mp hfile).2

/-- Decoding a file in an unlocked vault is stopped where it opens the entries. -/
theorem decodeFile_trap {data : Bytes} {dataKey : Key} (hs : p.vault.state = .unlocked)
    (hk : p.vault.dataKey = some dataKey) (hfs : p.fs p.vault.path = some data) (hr : e.read = .whole) :
    decodeFile S F e p.vault data = .error .trap ↔ ∃ encrypted, entriesToOpen F e p = .ok encrypted ∧
      decrypt S e.beyond encrypted dataKey.1 = .error .trap := by
  have hloaded : ∀ map, loadedEntries S F e p.vault map = openEntries S F e dataKey map := by
    intro map
    rw [loadedEntries, hs, hk]
  rw [entriesToOpen_of_read hfs hr]
  simp only [decodeFile, hloaded, openEntries, Except.bind_eq_error, Except.bind_eq_ok, fileMap_ne_trap,
    decodeHeader_ne_trap, encryptedEntries_ne_trap, decodeEntries_ne_trap, reduceCtorEq, and_false, exists_false, or_false,
    false_or]
  constructor
  · rintro ⟨map, hmap, h, hh, encrypted, henc, hdec⟩
    exact ⟨encrypted, ⟨map, hmap, h, hh, henc⟩, hdec⟩
  · rintro ⟨encrypted, ⟨map, hmap, h, hh, henc⟩, hdec⟩
    exact ⟨map, hmap, h, hh, encrypted, henc, hdec⟩

/-- A load in an unlocked vault is stopped where it opens the entries. -/
theorem load_trap {dataKey : Key} (hs : p.vault.state = .unlocked) (hk : p.vault.dataKey = some dataKey)
    (hbeyond : e.beyond = none) : (load S F e p).1 = .error .trap ↔ ∃ c ∈ loadCalls F e p, c.OutOfBounds := by
  have hcalls : (∃ c ∈ loadCalls F e p, c.OutOfBounds) ↔ ∃ encrypted, entriesToOpen F e p = .ok encrypted ∧
      decrypt S e.beyond encrypted dataKey.1 = .error .trap := by
    rw [loadCalls, hbeyond]
    rcases Except.ok_or_error (entriesToOpen F e p) with ⟨encrypted, h⟩ | ⟨f, h⟩ <;> rw [h]
    · simp [decrypt_trap]
    · simp
  rw [hcalls]
  by_cases hread : ∃ data, p.fs p.vault.path = some data ∧ e.read = .whole
  · obtain ⟨data, hfs, hr⟩ := hread
    rw [← decodeFile_trap hs hk hfs hr, load_of_read hfs hr, orFalse_apply]
    rcases Except.ok_or_error (decodeFile S F e p.vault data) with ⟨⟨h, es⟩, hd⟩ | ⟨f, hd⟩
    · rw [loadData_ok hd, hd]
      simp
    · obtain ⟨h, es, hl, -⟩ := loadData_error hd
      rw [hl, hd]
      cases f <;> simp
  · have hnot : ∀ data, p.fs p.vault.path = some data → e.read ≠ .whole := fun data hfs hr => hread ⟨data, hfs, hr⟩
    rw [load_of_not_read hnot]
    simp [entriesToOpen_of_not_read hnot]

theorem copyInto_error {n : Nat} {b : Bytes} {beyond : Option Bytes} {f : Fault} (h : copyInto beyond n b = .error f) :
    f = .trap := by
  unfold copyInto at h
  split_ifs at h
  cases beyond with
  | none => exact (Except.error.inj h).symm
  | some g => cases h

/-- What `unlock` returns in a locked vault, one step after the other. -/
theorem unlock_locked (hs : p.vault.state = .locked) : (unlock S F e passphrase p).1 =
    match deriveMasterKey S e.salt e.alloc e.beyond passphrase p.vault.header.salt with
    | .error f => .error f
    | .ok derived => match unwrap S e p.vault.header derived.key with
      | .error (.exn _) => .ok false
      | .error .trap => .error .trap
      | .ok b => match copyInto e.beyond DATA_KEY_SIZE b with
        | .error _ => .error .trap
        | .ok dataKey => (load S F e (p.withKeys derived.key dataKey)).1 := by
  rcases Except.ok_or_error (deriveMasterKey S e.salt e.alloc e.beyond passphrase p.vault.header.salt) with
    ⟨derived, hd⟩ | ⟨f, hd⟩
  · rcases Except.ok_or_error (unwrap S e p.vault.header derived.key) with ⟨b, hb⟩ | ⟨f, hb⟩
    · rcases Except.ok_or_error (copyInto e.beyond DATA_KEY_SIZE b) with ⟨dataKey, hk⟩ | ⟨f, hk⟩
      · simp only [unlock_loads hs hd hb hk, hd, hb, hk]
      · simp only [hd, hb, hk]
        rw [unwrap] at hb
        rw [copyInto_error hk] at hk
        simp [unlock, hs, hd, hb, hk, orFalse_apply]
    · simp only [hd, hb]
      rw [unwrap] at hb
      cases f <;> simp [unlock, hs, hd, hb, orFalse_apply]
  · rw [hd]
    simp [unlock, hs, hd]

/-- Where nothing lies beyond a buffer, `unlock` is stopped by its calls that are out of bounds, and by nothing else. -/
theorem unlock_trap (hs : p.vault.state = .locked) (hbeyond : e.beyond = none) :
    (unlock S F e passphrase p).1 = .error .trap ↔ ∃ c ∈ unlockCalls S F e passphrase p, c.OutOfBounds := by
  have hderive : deriveMasterKey S e.salt e.alloc none passphrase p.vault.header.salt = .error .trap ↔ _ :=
    deriveMasterKey_trap p.vault.header.salt
  rw [unlock_locked hs]
  simp only [unlockCalls, List.mem_append, or_and_right, exists_or, ← hderive, ← hbeyond]
  rcases Except.ok_or_error (deriveMasterKey S e.salt e.alloc e.beyond passphrase p.vault.header.salt) with
    ⟨derived, hd⟩ | ⟨f, hd⟩
  · have hunwrap : unwrap S e p.vault.header derived.key = .error .trap ↔ ∃ c ∈ decryptCalls
        ⟨p.vault.header.encryptedDataKey, p.vault.header.dataKeyNonce, []⟩, c.OutOfBounds := by
      rw [unwrap, hbeyond]
      exact decrypt_trap ⟨p.vault.header.encryptedDataKey, p.vault.header.dataKeyNonce, []⟩ derived.key
    simp only [hd, ← hunwrap, reduceCtorEq, false_or, List.mem_append, or_and_right, exists_or]
    rcases Except.ok_or_error (unwrap S e p.vault.header derived.key) with ⟨b, hb⟩ | ⟨f, hb⟩
    · have hcopy : copyInto e.beyond DATA_KEY_SIZE b = .error .trap ↔ DATA_KEY_SIZE < b.length := by
        rw [copyInto_trap, hbeyond]
        simp
      have hopened : (∃ c ∈ openedCalls F e p b, c.OutOfBounds) ↔ copyInto e.beyond DATA_KEY_SIZE b = .error .trap ∨
          ∃ dataKey, copyInto e.beyond DATA_KEY_SIZE b = .ok dataKey ∧ ∃ c ∈ loadCalls F e p, c.OutOfBounds := by
        rw [hcopy, openedCalls]
        rcases Except.ok_or_error (copyInto e.beyond DATA_KEY_SIZE b) with ⟨dataKey, hk⟩ | ⟨f, hk⟩ <;> rw [hk] <;>
          simp [Primitive.OutOfBounds]
      simp only [hb, hopened, reduceCtorEq, false_or]
      rcases Except.ok_or_error (copyInto e.beyond DATA_KEY_SIZE b) with ⟨dataKey, hk⟩ | ⟨f, hk⟩
      · have hload : (load S F e (p.withKeys derived.key dataKey)).1 = .error .trap ↔
            ∃ c ∈ loadCalls F e (p.withKeys derived.key dataKey), c.OutOfBounds := load_trap rfl rfl hbeyond
        simp only [hk, hload, reduceCtorEq, false_or]
        simp [loadCalls, entriesToOpen, Proc.withKeys]
      · simp [hk, copyInto_error hk]
    · simp only [hb]
      cases f <;> simp
  · rw [hd]
    simp

end Vault

/-! ## Which files are safe -/

/-- The fields that `unlock` comes to use have the sizes of the primitives they go to: each is looked at only where
those before it let `unlock` get that far. -/
structure SizedFields (S : Sodium) (F : Format) (e : Env) (passphrase : Bytes) (p : Proc) : Prop where
  salt : p.vault.header.salt = [] ∨ SALT_SIZE ≤ p.vault.header.salt.length
  wrapped : ∀ derived, deriveMasterKey S e.salt e.alloc e.beyond passphrase p.vault.header.salt = .ok derived →
    MAC_SIZE ≤ p.vault.header.encryptedDataKey.length → NONCE_SIZE ≤ p.vault.header.dataKeyNonce.length
  dataKey : ∀ derived dataKey, deriveMasterKey S e.salt e.alloc e.beyond passphrase p.vault.header.salt = .ok derived →
    unwrap S e p.vault.header derived.key = .ok dataKey → dataKey.length = DATA_KEY_SIZE
  entries : ∀ derived dataKey encrypted,
    deriveMasterKey S e.salt e.alloc e.beyond passphrase p.vault.header.salt = .ok derived →
    unwrap S e p.vault.header derived.key = .ok dataKey → entriesToOpen F e p = .ok encrypted →
    MAC_SIZE ≤ encrypted.ciphertext.length → NONCE_SIZE ≤ encrypted.nonce.length

/-- Some field of the file is shorter than the primitive it is for, or the wrapped key is not one of a data key. -/
def Malformed (S : Sodium) (F : Format) (e : Env) (passphrase : Bytes) (p : Proc) : Prop :=
  (p.vault.header.salt ≠ [] ∧ p.vault.header.salt.length < SALT_SIZE) ∨
    p.vault.header.dataKeyNonce.length < NONCE_SIZE ∨
    (∃ derived dataKey, deriveMasterKey S e.salt e.alloc e.beyond passphrase p.vault.header.salt = .ok derived ∧
      unwrap S e p.vault.header derived.key = .ok dataKey ∧ dataKey.length ≠ DATA_KEY_SIZE) ∨
    ∃ encrypted, entriesToOpen F e p = .ok encrypted ∧ encrypted.nonce.length < NONCE_SIZE

theorem sized_decryptCalls {encrypted : EncryptedData} : (∀ c ∈ decryptCalls encrypted, c.Sized) ↔
    (MAC_SIZE ≤ encrypted.ciphertext.length → NONCE_SIZE ≤ encrypted.nonce.length) := by
  unfold decryptCalls
  split_ifs with hmac
  · simp [Nat.not_le.mpr hmac]
  · simp [Nat.not_lt.mp hmac, Primitive.Sized]

theorem sized_deriveMasterKeyCalls {fresh : Salt} {salt : Bytes} :
    (∀ c ∈ deriveMasterKeyCalls fresh salt, c.Sized) ↔ salt = [] ∨ SALT_SIZE ≤ salt.length := by
  by_cases h : salt = []
  · simp [deriveMasterKeyCalls, h, Primitive.Sized, fresh.2]
  · simp [deriveMasterKeyCalls, h, Primitive.Sized]

theorem sized_loadCalls : (∀ c ∈ loadCalls F e p, c.Sized) ↔ ∀ encrypted, entriesToOpen F e p = .ok encrypted →
    MAC_SIZE ≤ encrypted.ciphertext.length → NONCE_SIZE ≤ encrypted.nonce.length := by
  rw [loadCalls]
  rcases Except.ok_or_error (entriesToOpen F e p) with ⟨encrypted, h⟩ | ⟨f, h⟩
  · simp [h, sized_decryptCalls]
  · simp [h]

theorem sized_openedCalls {dataKey : Bytes} : (∀ c ∈ openedCalls F e p dataKey, c.Sized) ↔
    dataKey.length = DATA_KEY_SIZE ∧ ∀ c ∈ loadCalls F e p, c.Sized := by
  rw [openedCalls, List.forall_mem_cons]
  refine and_congr_right fun hlen => ?_
  rw [copyInto_of_length hlen]

/-- The sizes of the calls are those of the fields that `unlock` comes to use. -/
theorem sized_unlockCalls : (∀ c ∈ unlockCalls S F e passphrase p, c.Sized) ↔ SizedFields S F e passphrase p := by
  rw [unlockCalls, List.forall_mem_append, sized_deriveMasterKeyCalls]
  rcases Except.ok_or_error (deriveMasterKey S e.salt e.alloc e.beyond passphrase p.vault.header.salt) with
    ⟨derived, hd⟩ | ⟨f, hd⟩
  · simp only [hd, List.forall_mem_append, sized_decryptCalls]
    rcases Except.ok_or_error (unwrap S e p.vault.header derived.key) with ⟨b, hb⟩ | ⟨f, hb⟩
    · simp only [hb, sized_openedCalls, sized_loadCalls]
      constructor
      · rintro ⟨hsalt, hwrapped, hkey, hentries⟩
        refine ⟨hsalt, fun _ _ => hwrapped, fun derived' b' hd' hb' => ?_, fun _ _ encrypted _ _ => hentries encrypted⟩
        rw [hd, Except.ok.injEq] at hd'
        rw [← hd', hb, Except.ok.injEq] at hb'
        exact hb' ▸ hkey
      · rintro ⟨hsalt, hwrapped, hkey, hentries⟩
        exact ⟨hsalt, hwrapped derived hd, hkey derived b hd hb, fun encrypted => hentries derived b encrypted hd hb⟩
    · simp only [hb, List.not_mem_nil, false_implies, implies_true, and_true]
      constructor
      · rintro ⟨hsalt, hwrapped⟩
        have hnever : ∀ derived' b, deriveMasterKey S e.salt e.alloc e.beyond passphrase p.vault.header.salt = .ok derived' →
            unwrap S e p.vault.header derived'.key ≠ .ok b := by
          intro derived' b hd' hb'
          rw [hd, Except.ok.injEq] at hd'
          rw [← hd', hb] at hb'
          cases hb'
        exact ⟨hsalt, fun _ _ => hwrapped, fun derived' b hd' hb' => absurd hb' (hnever derived' b hd'),
          fun derived' b _ hd' hb' => absurd hb' (hnever derived' b hd')⟩
      · rintro ⟨hsalt, hwrapped, -, -⟩
        exact ⟨hsalt, hwrapped derived hd⟩
  · simp only [hd, List.not_mem_nil, false_implies, implies_true, and_true]
    constructor
    · intro hsalt
      exact ⟨hsalt, (fun _ hd' => by cases hd.symm.trans hd'), (fun _ _ hd' => by cases hd.symm.trans hd'),
        fun _ _ _ hd' => by cases hd.symm.trans hd'⟩
    · exact fun h => h.salt

theorem decrypt_mac {encrypted : EncryptedData} {key : Key} {m : Bytes}
    (h : decrypt S e.beyond encrypted key.1 = .ok m) : MAC_SIZE ≤ encrypted.ciphertext.length := by
  by_contra hmac
  rw [decrypt, dif_pos key.2, if_pos (Nat.not_le.mp hmac)] at h
  cases h

/-- A load that returns true in an unlocked vault has decrypted the entries. -/
theorem load_opens {dataKey : Key} (hs : p.vault.state = .unlocked) (hk : p.vault.dataKey = some dataKey)
    (h : (load S F e p).1 = .ok true) : ∃ encrypted m, entriesToOpen F e p = .ok encrypted ∧
      decrypt S e.beyond encrypted dataKey.1 = .ok m := by
  rcases load_cases S F e p with ⟨data, hd, es, hfs, hr, hdec, -⟩ | ⟨-, r, hd, es, hl, hres, -⟩
  · obtain ⟨map, hmap, hh, hloaded⟩ := decodeFile_map hdec
    rw [loadedEntries, hs, hk] at hloaded
    obtain ⟨encrypted, henc, hloaded⟩ := Except.bind_eq_ok.mp hloaded
    obtain ⟨m, hm, -⟩ := Except.bind_eq_ok.mp hloaded
    refine ⟨encrypted, m, ?_, hm⟩
    rw [entriesToOpen_of_read hfs hr, hmap, Except.ok_bind, hh, Except.ok_bind]
    exact henc
  · rw [hl] at h
    rcases hres with rfl | rfl <;> cases h

/-- An unlock that returns true has opened the wrapped key and the entries. -/
theorem unlock_opens (hs : p.vault.state = .locked) (h : (unlock S F e passphrase p).1 = .ok true) :
    ∃ derived dataKey encrypted, deriveMasterKey S e.salt e.alloc e.beyond passphrase p.vault.header.salt = .ok derived ∧
      unwrap S e p.vault.header derived.key = .ok dataKey ∧ entriesToOpen F e p = .ok encrypted ∧
      MAC_SIZE ≤ encrypted.ciphertext.length := by
  rcases unlock_cases S F e p passphrase with ⟨hn, -⟩ | ⟨-, f, -, hu⟩ | ⟨-, derived, hd, hcases⟩
  · exact absurd hs hn
  · rw [hu] at h
    cases h
  · rcases hcases with ⟨x, -, hu⟩ | ⟨p', hu⟩ | ⟨b, dataKey, hb, -, hu⟩
    · rw [hu] at h
      cases h
    · rw [hu] at h
      cases h
    · rw [hu] at h
      obtain ⟨encrypted, m, henc, hm⟩ := load_opens rfl rfl h
      exact ⟨derived, b, encrypted, hd, hb, henc, decrypt_mac hm⟩

/-- Unlocking an opened file hands every primitive what it is made for, and refuses what is malformed, exactly when the
fields it comes to use have the right sizes. -/
theorem unlock_sized {e₀ : Env} {path : Bytes} {p₀ : Proc} (hopen : «open» S F e₀ path p₀ = (.ok true, p)) :
    ((∀ c ∈ unlockCalls S F e passphrase p, c.Sized) ∧
        (Malformed S F e passphrase p → (unlock S F e passphrase p).1 ≠ .ok true)) ↔
      SizedFields S F e passphrase p := by
  have hs : p.vault.state = .locked := by
    rcases open_cases S F e₀ p₀ path with ⟨-, ho⟩ | ⟨-, p', -, ho⟩ | ⟨-, r, p', -, hr, ho⟩ <;> rw [ho] at hopen
    · cases hopen
    · rw [← (Prod.mk.inj hopen).2]
      rfl
    · exact absurd (Prod.mk.inj hopen).1 hr
  rw [sized_unlockCalls]
  refine ⟨fun h => h.1, fun h => ⟨h, fun hmal htrue => ?_⟩⟩
  obtain ⟨derived, dataKey, encrypted, hd, hb, henc, hmac⟩ := unlock_opens hs htrue
  have hwrapped : MAC_SIZE ≤ p.vault.header.encryptedDataKey.length := decrypt_mac hb
  rcases hmal with ⟨hne, hsalt⟩ | hnonce | ⟨derived', key, hd', hb', hlen⟩ | ⟨encrypted', henc', hnonce⟩
  · rcases h.salt with h | h
    · exact hne h
    · omega
  · have := h.wrapped derived hd hwrapped
    omega
  · exact hlen (h.dataKey derived' key hd' hb')
  · rw [henc, Except.ok.injEq] at henc'
    have := h.entries derived dataKey encrypted hd hb henc hmac
    rw [henc'] at this
    omega

instance Primitive.decidableSized : (c : Primitive) → Decidable c.Sized
  | .pwhash salt => inferInstanceAs (Decidable (SALT_SIZE ≤ salt.length))
  | .openEasy nonce => inferInstanceAs (Decidable (NONCE_SIZE ≤ nonce.length))
  | .copyKey dataKey => inferInstanceAs (Decidable (dataKey.length = DATA_KEY_SIZE))

/-- A fresh object opening a file with these contents. -/
def openedWith (data : Bytes) : Except Fault Bool × Proc :=
  «open» .toy spec (Env.calm 3 .epoch) (ascii "vault") ⟨.fresh, fun _ => some data⟩

/-- The file of a vault just created. -/
def createdFile : Bytes :=
  ((runs (Proc.step .toy spec) ⟨.fresh, fun _ => none⟩ createdRun).bind fun p => p.fs (ascii "vault")).getD []

theorem unlock_sized_created :
    (∀ c ∈ unlockCalls .toy spec (Env.calm 3 .epoch) (ascii "passphrase") (openedWith createdFile).2, c.Sized) ∧
      (Malformed .toy spec (Env.calm 3 .epoch) (ascii "passphrase") (openedWith createdFile).2 →
        (unlock .toy spec (Env.calm 3 .epoch) (ascii "passphrase") (openedWith createdFile).2).1 ≠ .ok true) := by
  have htrue : (openedWith createdFile).1 = .ok true := by decide +kernel
  have hopen : openedWith createdFile = (.ok true, (openedWith createdFile).2) := htrue ▸ Prod.mk.eta.symm
  have hcalls : ∀ c ∈ unlockCalls .toy spec (Env.calm 3 .epoch) (ascii "passphrase") (openedWith createdFile).2,
      c.Sized := by decide +kernel
  exact (unlock_sized hopen).mpr (sized_unlockCalls.mp hcalls)

/-- A file with a salt of one byte. -/
def shortSaltFile : Bytes := (packFile spec ⟨1, [7], [], []⟩ ⟨[], [], []⟩).toOption.getD []

/-- It opens, and `unlock` hands its one byte to `crypto_pwhash`. -/
theorem unlock_sized_shortSalt : (openedWith shortSaltFile).1 = .ok true ∧
    ¬ ∀ c ∈ unlockCalls .toy spec (Env.calm 3 .epoch) (ascii "passphrase") (openedWith shortSaltFile).2, c.Sized := by
  decide +kernel

end Passdoq
