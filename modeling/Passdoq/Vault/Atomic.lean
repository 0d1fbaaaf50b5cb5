import Passdoq.Cli.Status

/-!
# Calls that return false

`load`, `create`, `rekey` and `save` report a failure by returning false. This module says what is left of the state then.

* `load_left`, `load_left_nothing` : what `load` leaves, wherever it stops;
* `load_false_keeps` : a failed `load` changes nothing when all it assigned was there before;
* `key_change_atomic` : a failed `create` or `rekey` changes nothing when it fails before its first assignment;
* `save_atomic` : `save` is truthful about the file when it is refused, or nothing fails, or the failure shows and
  leaves what was there.
-/

namespace Passdoq
open Msgpack Crypto Vault

variable {S : Sodium} {F : Format} {e : Env} {p : Proc}

namespace Vault

/-! ## What `load` leaves -/

/-- The entries ahead of the first malformed item. -/
def leading (stale : Int) : List Obj → List Entry
  | [] => []
  | item :: array => match unpackEntry stale item with
    | .ok entry => entry :: leading stale array
    | .error _ => []

/-- The entries ahead of the first malformed item of a payload; none where the payload is no array. -/
def payloadEntries (F : Format) (stale : Int) (data : Bytes) : OrdMap Bytes Entry :=
  match unpack F data with
  | .error _ => ∅
  | .ok obj => match obj.asArray with
    | none => ∅
    | some array => OrdMap.ofList ((leading stale array).map fun entry => (entry.id, entry))

/-- The decrypted entries of a file. -/
def payload (S : Sodium) (e : Env) (dataKey : Key) (map : OrdMap Bytes Obj) : Except Fault Bytes := do
  let encrypted ← encryptedEntries map
  decrypt S e.beyond encrypted dataKey.1

/-- What `load` leaves of the entries, past a header that decodes. -/
def entriesRead (S : Sodium) (F : Format) (e : Env) (v : Vault) (map : OrdMap Bytes Obj) : OrdMap Bytes Entry :=
  match v.state, v.dataKey with
  | .unlocked, some dataKey => match payload S e dataKey map with
    | .ok data => payloadEntries F e.stale data
    | .error _ => v.entries
  | _, _ => v.entries

theorem deserializeLoop_left (stale : Int) (array : List Obj) (p : Proc) : (deserializeLoop stale array p).2 =
    p.assign p.vault.header (p.vault.entries.insertMany ((leading stale array).map fun entry => (entry.id, entry))) := by
  induction array generalizing p with
  | nil => rfl
  | cons item array ih =>
    unfold deserializeLoop leading
    rw [Eff.bind_apply, Eff.lift_apply]
    cases unpackEntry stale item with
    | error f => rfl
    | ok entry =>
      dsimp only
      rw [Eff.bind_apply, setVault_apply]
      exact ih _

theorem deserializeEntries_left (stale : Int) (data : Bytes) (p : Proc) :
    (deserializeEntries F stale data p).2 = p.assign p.vault.header (payloadEntries F stale data) := by
  unfold deserializeEntries payloadEntries
  simp only [Eff.bind_apply, setVault_apply, Eff.lift_apply]
  cases unpack F data with
  | error f => rfl
  | ok obj =>
    cases hobj : obj.asArray with
    | none => simp [as, hobj, Proc.assign]
    | some array =>
      simp only [as, hobj]
      exact deserializeLoop_left stale array _

theorem entriesRead_unlocked {v : Vault} {dataKey : Key} (hs : v.state = .unlocked) (hk : v.dataKey = some dataKey)
    (map : OrdMap Bytes Obj) : entriesRead S F e v map = match payload S e dataKey map with
      | .ok data => payloadEntries F e.stale data
      | .error _ => v.entries := by
  unfold entriesRead
  rw [hs, hk]

theorem entriesRead_otherwise {v : Vault} (h : ∀ dataKey, v.state = .unlocked → v.dataKey ≠ some dataKey)
    (map : OrdMap Bytes Obj) : entriesRead S F e v map = v.entries := by
  unfold entriesRead
  split
  · next dataKey hs hk => exact absurd hk (h dataKey hs)
  · rfl

theorem loadEntries_left (map : OrdMap Bytes Obj) (p : Proc) :
    (loadEntries S F e map p).2 = p.assign p.vault.header (entriesRead S F e p.vault map) := by
  by_cases hkey : ∃ dataKey, p.vault.state = .unlocked ∧ p.vault.dataKey = some dataKey
  · obtain ⟨dataKey, hs, hk⟩ := hkey
    rw [loadEntries_unlocked hs hk, entriesRead_unlocked hs hk, payload]
    cases encryptedEntries map with
    | error f => rfl
    | ok encrypted =>
      simp only [Eff.lift_ok_bind, Except.ok_bind]
      cases decrypt S e.beyond encrypted dataKey.1 with
      | error f => rfl
      | ok data => exact deserializeEntries_left e.stale data p
  · have hno : ∀ dataKey, p.vault.state = .unlocked → p.vault.dataKey ≠ some dataKey :=
      fun dataKey hs hk => hkey ⟨dataKey, hs, hk⟩
    rw [loadEntries_otherwise hno, entriesRead_otherwise hno, Proc.assign_self]

/-- What the whole of `load` leaves, wherever it stops. -/
theorem load_left {data : Bytes} {map : OrdMap Bytes Obj} (hfs : p.fs p.vault.path = some data) (hr : e.read = .whole)
    (hmap : fileMap F data = .ok map) : (load S F e p).2 = p.assign (headerRead map p.vault.header)
      (match decodeHeader map with
        | .ok _ => entriesRead S F e p.vault map
        | .error _ => p.vault.entries) := by
  have hrest : (load S F e p).2 = (loadData S F e data p).2 := by
    rw [load_of_read hfs hr, orFalse_apply]
    rcases loadData S F e data p with ⟨(_ | _) | _, _⟩ <;> rfl
  obtain ⟨obj, hobj, hmap⟩ := Except.bind_eq_ok.mp hmap
  rw [hrest, loadData, hobj]
  simp only [Eff.bind_apply, Eff.lift_apply, hmap]
  rcases Except.ok_or_error (decodeHeader map) with ⟨h, hd⟩ | ⟨f, hd⟩
  · rw [loadHeader_ok hd, hd, headerRead_of_decodeHeader hd]
    have hleft := loadEntries_left (S := S) (F := F) (e := e) map (p.assign h p.vault.entries)
    dsimp only
    revert hleft
    rcases loadEntries S F e map (p.assign h p.vault.entries) with ⟨_ | _, _⟩ <;> exact id
  · rw [loadHeader_error hd, hd]

theorem load_left_nothing (h : ∀ data map, p.fs p.vault.path = some data → e.read = .whole → fileMap F data ≠ .ok map) :
    (load S F e p).2 = p := by
  by_cases hread : ∃ data, p.fs p.vault.path = some data ∧ e.read = .whole
  · obtain ⟨data, hfs, hr⟩ := hread
    have hno := fun map => h data map hfs hr
    rw [load_of_read hfs hr, orFalse_apply]
    unfold fileMap at hno
    unfold loadData
    rw [Eff.bind_apply, Eff.lift_apply]
    cases hobj : unpack F data with
    | error f => cases f <;> rfl
    | ok obj =>
      dsimp only
      rw [Eff.bind_apply, Eff.lift_apply]
      cases hmap : as obj.asMap with
      | error f => cases f <;> rfl
      | ok map => exact absurd (by rw [hobj, Except.ok_bind, hmap]) (hno map)
  · rw [load_of_not_read fun data hfs hr => hread ⟨data, hfs, hr⟩]

end Vault

/-! ## A failed load -/

/-- Each header field that is read, together with those before it, is what `h` has. -/
structure HeaderHeld (map : OrdMap Bytes Obj) (h : VaultHeader) : Prop where
  version : ∀ version, (field map (ascii "version")).asUInt32 = some version → h.version = version
  salt : ∀ version salt, (field map (ascii "version")).asUInt32 = some version →
    (field map (ascii "salt")).asVector = some salt → h.salt = salt
  encryptedDataKey : ∀ version salt key, (field map (ascii "version")).asUInt32 = some version →
    (field map (ascii "salt")).asVector = some salt → (field map (ascii "encrypted_data_key")).asVector = some key →
    h.encryptedDataKey = key
  dataKeyNonce : ∀ version salt key nonce, (field map (ascii "version")).asUInt32 = some version →
    (field map (ascii "salt")).asVector = some salt → (field map (ascii "encrypted_data_key")).asVector = some key →
    (field map (ascii "data_key_nonce")).asVector = some nonce → h.dataKeyNonce = nonce

/-- A payload that the vault comes to decrypt has, ahead of its first malformed item, the entries of the vault. -/
def EntriesHeld (S : Sodium) (F : Format) (e : Env) (v : Vault) (map : OrdMap Bytes Obj) : Prop :=
  ∀ h dataKey data, decodeHeader map = .ok h → v.state = .unlocked → v.dataKey = some dataKey →
    payload S e dataKey map = .ok data → v.entries = payloadEntries F e.stale data

/-- A `load` that returns false leaves the header and the entries as they were. -/
def LoadFalseKeeps (S : Sodium) (F : Format) (e : Env) (p : Proc) : Prop :=
  (load S F e p).1 = .ok false → (load S F e p).2.vault.header = p.vault.header ∧
    (load S F e p).2.vault.entries = p.vault.entries

theorem headerHeld_iff (map : OrdMap Bytes Obj) (h : VaultHeader) : HeaderHeld map h ↔ headerRead map h = h := by
  unfold headerRead
  constructor
  · intro hheld
    cases hversion : (field map (ascii "version")).asUInt32 with
    | none => rfl
    | some version =>
      have h1 := hheld.version version hversion
      cases hsalt : (field map (ascii "salt")).asVector with
      | none => simp [← h1]
      | some salt =>
        have h2 := hheld.salt version salt hversion hsalt
        cases hkey : (field map (ascii "encrypted_data_key")).asVector with
        | none => simp [← h1, ← h2]
        | some key =>
          have h3 := hheld.encryptedDataKey version salt key hversion hsalt hkey
          cases hnonce : (field map (ascii "data_key_nonce")).asVector with
          | none => simp [← h1, ← h2, ← h3]
          | some nonce => simp [← h1, ← h2, ← h3, ← hheld.dataKeyNonce version salt key nonce hversion hsalt hkey hnonce]
  · intro hread
    constructor
    · intro version h1
      rw [h1] at hread
      rw [← hread]
      dsimp only
      split
      · rfl
      · split
        · rfl
        · split <;> rfl
    · intro version salt h1 h2
      rw [h1, h2] at hread
      rw [← hread]
      dsimp only
      split
      · rfl
      · split <;> rfl
    · intro version salt key h1 h2 h3
      rw [h1, h2, h3] at hread
      rw [← hread]
      dsimp only
      split <;> rfl
    · intro version salt key nonce h1 h2 h3 h4
      rw [h1, h2, h3, h4] at hread
      rw [← hread]

theorem entriesHeld_iff (v : Vault) (map : OrdMap Bytes Obj) : EntriesHeld S F e v map ↔
    ∀ h, decodeHeader map = .ok h → entriesRead S F e v map = v.entries := by
  by_cases hkey : ∃ dataKey, v.state = .unlocked ∧ v.dataKey = some dataKey
  · obtain ⟨dataKey, hs, hk⟩ := hkey
    rw [entriesRead_unlocked hs hk]
    constructor
    · intro hheld h hd
      cases hpayload : payload S e dataKey map with
      | error f => rfl
      | ok data => exact (hheld h dataKey data hd hs hk hpayload).symm
    · intro hleft h dataKey' data hd _ hk' hpayload
      obtain rfl : dataKey = dataKey' := Option.some.inj (hk.symm.trans hk')
      have hsame := hleft h hd
      rw [hpayload] at hsame
      exact hsame.symm
  · have hno : ∀ dataKey, v.state = .unlocked → v.dataKey ≠ some dataKey := fun dataKey hs hk => hkey ⟨dataKey, hs, hk⟩
    rw [entriesRead_otherwise hno]
    exact ⟨fun _ _ _ => rfl, fun _ _ dataKey _ _ hs hk => absurd hk (hno dataKey hs)⟩

/-- A failed `load` changes nothing exactly when what it assigned before it failed was there already. -/
theorem load_false_keeps : LoadFalseKeeps S F e p ↔ (LoadFails S F e p → ∀ data map, p.fs p.vault.path = some data →
    e.read = .whole → fileMap F data = .ok map → HeaderHeld map p.vault.header ∧ EntriesHeld S F e p.vault map) := by
  unfold LoadFalseKeeps
  rw [load_false_iff]
  refine imp_congr_right fun _ => ?_
  by_cases hread : ∃ data map, p.fs p.vault.path = some data ∧ e.read = .whole ∧ fileMap F data = .ok map
  · obtain ⟨data, map, hfs, hr, hmap⟩ := hread
    have honly : (∀ data map, p.fs p.vault.path = some data → e.read = .whole → fileMap F data = .ok map →
        HeaderHeld map p.vault.header ∧ EntriesHeld S F e p.vault map) ↔
        HeaderHeld map p.vault.header ∧ EntriesHeld S F e p.vault map := by
      constructor
      · exact fun h => h data map hfs hr hmap
      · intro h data' map' hfs' _ hmap'
        obtain rfl : data = data' := Option.some.inj (hfs.symm.trans hfs')
        obtain rfl : map = map' := Except.ok.inj (hmap.symm.trans hmap')
        exact h
    rw [honly, load_left hfs hr hmap, headerHeld_iff, entriesHeld_iff, Proc.header_assign, Proc.entries_assign]
    refine and_congr_right fun _ => ?_
    rcases Except.ok_or_error (decodeHeader map) with ⟨h, hd⟩ | ⟨f, hd⟩
    · rw [hd]
      exact ⟨fun hes _ _ => hes, fun hes => hes h rfl⟩
    · rw [hd]
      exact ⟨fun _ _ hd => absurd hd nofun, fun _ => rfl⟩
  · have hno : ∀ data map, p.fs p.vault.path = some data → e.read = .whole → fileMap F data ≠ .ok map :=
      fun data map hfs hr hmap => hread ⟨data, map, hfs, hr, hmap⟩
    rw [load_left_nothing hno]
    exact ⟨fun _ data map hfs hr hmap => absurd hmap (hno data map hfs hr), fun _ => ⟨rfl, rfl⟩⟩

/-- A file that has a version and nothing else. -/
def versionOnly : Bytes := spec.mapHeader 1 ++ (spec.strHeader 7 ++ ascii "version" ++ spec.uint32 2)

/-- A vault just created; then another writer puts `contents` in the place of its file. -/
def tampered (contents : Bytes) : Option Proc := runs (Proc.step .toy spec) ⟨.fresh, fun _ => none⟩
  [.call (Env.calm 7 .epoch) (.create (ascii "vault") (ascii "passphrase")), .external (ascii "vault") (some contents)]

/-- The version is assigned before the salt turns out to be missing. -/
theorem load_false_keeps_version : ∃ p, tampered versionOnly = some p ∧
    ¬ LoadFalseKeeps .toy spec (Env.calm 8 .epoch) p := by
  have hcheck : (tampered versionOnly).any fun p => decide ((load .toy spec (Env.calm 8 .epoch) p).1 = .ok false ∧
      (load .toy spec (Env.calm 8 .epoch) p).2.vault.header ≠ p.vault.header) := by
    decide +kernel
  obtain ⟨p, hrun, hcheck⟩ := (Option.any_eq_true _ _).mp hcheck
  obtain ⟨hfalse, hheader⟩ := of_decide_eq_true hcheck
  exact ⟨p, hrun, fun hkeeps => hheader (hkeeps hfalse).1⟩

/-! ## A failed key change -/

def SameKeys (v v' : Vault) : Prop :=
  v'.state = v.state ∧ v'.header = v.header ∧ v'.masterKey = v.masterKey ∧ v'.dataKey = v.dataKey ∧ v'.entries = v.entries

/-- A call that returns false leaves them the same. -/
def KeepsOnFalse (x : Act Bool) (p : Proc) : Prop := (x p).1 = .ok false → SameKeys p.vault (x p).2.vault

/-- What the stream of a write reports before it is closed. -/
def WriteIO.reportsGood : WriteIO → Prop
  | .refused => False
  | .short _ good => good = true
  | .full good => good = true

/-- The save of an unlocked vault reports success. -/
def SaveSettles (S : Sodium) (F : Format) (e : Env) (v : Vault) : Prop :=
  (∃ b, fileBytes S F e.nonce v = .ok b) ∧ e.write.reportsGood

theorem writeFile_reports (fs : FS) (path : Bytes) (io : WriteIO) (b : Bytes) :
    (writeFile fs path io b).1.getD false = true ↔ io.reportsGood := by
  cases io with
  | refused => simp [writeFile, WriteIO.reportsGood]
  | short k good => rfl
  | full good => rfl

theorem save_false_iff (hs : p.vault.state = .unlocked) (hk : p.vault.dataKey.isSome) :
    (save S F e p).1 = .ok false ↔ ¬ SaveSettles S F e p.vault := by
  rw [save_unlocked hs, SaveSettles]
  rcases Except.ok_or_error (fileBytes S F e.nonce p.vault) with ⟨b, hb⟩ | ⟨f, hb⟩
  · have hreports := writeFile_reports p.fs p.vault.path e.write b
    rw [hb]
    dsimp only
    rw [← hreports]
    simp
  · have htrap := fileBytes_ne_trap (S := S) (F := F) hk e.nonce
    rw [hb] at htrap ⊢
    cases f with
    | exn x => simp
    | trap => exact absurd rfl htrap

/-- `create` returns false with the vault unlocked, so it must not come to a save that fails. -/
theorem create_keepsOnFalse (path passphrase : Bytes) : KeepsOnFalse (create S F e path passphrase) p ↔
    (p.vault.state = .uninitialized → ∀ derived, deriveMasterKey S e.salt e.alloc e.beyond passphrase [] = .ok derived →
      SaveSettles S F e (created S e p path derived).vault) := by
  unfold KeepsOnFalse
  by_cases hs : p.vault.state = .uninitialized
  · rcases Except.ok_or_error (deriveMasterKey S e.salt e.alloc e.beyond passphrase []) with ⟨d, hd⟩ | ⟨f, hd⟩
    · have hchanged : ¬ SameKeys p.vault (created S e p path d).vault := by
        intro hsame
        have hstate : VaultState.unlocked = p.vault.state := hsame.1
        rw [hs] at hstate
        cases hstate
      rw [create_derived hs hd, save_vault, save_false_iff rfl rfl, hd]
      constructor
      · intro hkeeps _ derived hderived
        cases hderived
        by_contra hsettles
        exact hchanged (hkeeps hsettles)
      · exact fun hsettles hfails => absurd (hsettles hs d rfl) hfails
    · rw [create_refused hs hd, hd]
      exact ⟨fun _ _ _ hd => absurd hd nofun, fun _ hfalse => absurd hfalse nofun⟩
  · rcases create_cases S F e p path passphrase with ⟨-, hc⟩ | ⟨h, -⟩ | ⟨h, -⟩
    · rw [hc]
      exact ⟨fun _ h => absurd h hs, fun _ _ => ⟨rfl, rfl, rfl, rfl, rfl⟩⟩
    · exact absurd h hs
    · exact absurd h hs

theorem rekey_unkeyed {newDataKey : Bytes} (hs : p.vault.state = .unlocked) (hlen : newDataKey.length = DATA_KEY_SIZE)
    (hd : p.vault.dataKey = none) : (rekey S F e newDataKey p).1 = .error .trap := by
  simp [rekey, ensureUnlocked_apply, hs, hlen, hd, deref]

/-- `rekey` must not come to a save that fails either, unless its keys and its nonce are those in use. -/
theorem rekey_keepsOnFalse (newDataKey : Bytes) : KeepsOnFalse (rekey S F e newDataKey) p ↔
    ∀ (hlen : newDataKey.length = DATA_KEY_SIZE) (dataKey masterKey : Key), p.vault.state = .unlocked →
      p.vault.dataKey = some dataKey → p.vault.masterKey = some masterKey →
      SaveSettles S F e (rekeyed S e p masterKey ⟨newDataKey, hlen⟩).vault ∨
        (dataKey = ⟨newDataKey, hlen⟩ ∧ p.vault.header.rewrap S masterKey ⟨newDataKey, hlen⟩ e.keyNonce = p.vault.header) := by
  unfold KeepsOnFalse
  constructor
  · intro hkeeps hlen dataKey masterKey hs hd hm
    rw [rekey_wraps hs hlen hd hm, save_vault, save_false_iff rfl rfl] at hkeeps
    by_cases hsettles : SaveSettles S F e (rekeyed S e p masterKey ⟨newDataKey, hlen⟩).vault
    · exact .inl hsettles
    · obtain ⟨-, hheader, -, hdata, -⟩ := hkeeps hsettles
      have hdata : some (⟨newDataKey, hlen⟩ : Key) = p.vault.dataKey := hdata
      exact .inr ⟨(Option.some.inj (hdata.trans hd)).symm, hheader⟩
  · intro hcond hfalse
    rcases rekey_cases S F e p newDataKey with ⟨-, hk⟩ | ⟨-, -, hk⟩ | ⟨-, p', hk⟩ | ⟨hs, masterKey, hlen, hm, hk⟩
    · rw [hk] at hfalse
      cases hfalse
    · rw [hk]
      exact ⟨rfl, rfl, rfl, rfl, rfl⟩
    · rw [hk] at hfalse
      cases hfalse
    · cases hd : p.vault.dataKey with
      | none =>
        rw [rekey_unkeyed hs hlen hd] at hfalse
        cases hfalse
      | some dataKey =>
        rw [hk, save_false_iff rfl rfl] at hfalse
        rw [hk, save_vault]
        rcases hcond hlen dataKey masterKey hs hd hm with hsettles | ⟨hsame, hheader⟩
        · exact absurd hsettles hfalse
        · exact ⟨hs.symm, hheader, hm.symm, by rw [hd, hsame]; rfl, rfl⟩

/-- Both key changes, and when a failed one changes nothing. -/
theorem key_change_atomic (path passphrase newDataKey : Bytes) :
    (KeepsOnFalse (create S F e path passphrase) p ↔
      (p.vault.state = .uninitialized → ∀ derived, deriveMasterKey S e.salt e.alloc e.beyond passphrase [] = .ok derived →
        SaveSettles S F e (created S e p path derived).vault)) ∧
    (KeepsOnFalse (rekey S F e newDataKey) p ↔
      ∀ (hlen : newDataKey.length = DATA_KEY_SIZE) (dataKey masterKey : Key), p.vault.state = .unlocked →
        p.vault.dataKey = some dataKey → p.vault.masterKey = some masterKey →
        SaveSettles S F e (rekeyed S e p masterKey ⟨newDataKey, hlen⟩).vault ∨ (dataKey = ⟨newDataKey, hlen⟩ ∧
          p.vault.header.rewrap S masterKey ⟨newDataKey, hlen⟩ e.keyNonce = p.vault.header)) :=
  ⟨create_keepsOnFalse path passphrase, rekey_keepsOnFalse newDataKey⟩

def readOnly (b : UInt8) : Env := { Env.calm b .epoch with write := .refused }

/-- A `create` that cannot write its file leaves the vault unlocked; a `rekey` that cannot leaves the new keys. -/
theorem key_change_atomic_refused :
    ¬ KeepsOnFalse (create .toy spec (readOnly 7) (ascii "vault") (ascii "passphrase")) ⟨.fresh, fun _ => none⟩ ∧
    ∃ p, runs (Proc.step .toy spec) ⟨.fresh, fun _ => none⟩
        [.call (Env.calm 7 .epoch) (.create (ascii "vault") (ascii "passphrase"))] = some p ∧
      ¬ KeepsOnFalse (rekey .toy spec (readOnly 8) (List.replicate DATA_KEY_SIZE 9)) p := by
  constructor
  · intro hkeeps
    have hfalse : (create .toy spec (readOnly 7) (ascii "vault") (ascii "passphrase") ⟨.fresh, fun _ => none⟩).1 = .ok false ∧
        (create .toy spec (readOnly 7) (ascii "vault") (ascii "passphrase") ⟨.fresh, fun _ => none⟩).2.vault.state =
          .unlocked := by
      decide +kernel
    have hstate := (hkeeps hfalse.1).1
    rw [hfalse.2] at hstate
    cases hstate
  · have hcheck : (runs (Proc.step .toy spec) ⟨.fresh, fun _ => none⟩
        [.call (Env.calm 7 .epoch) (.create (ascii "vault") (ascii "passphrase"))]).any fun p =>
        decide ((rekey .toy spec (readOnly 8) (List.replicate DATA_KEY_SIZE 9) p).1 = .ok false ∧
          (rekey .toy spec (readOnly 8) (List.replicate DATA_KEY_SIZE 9) p).2.vault.dataKey ≠ p.vault.dataKey) := by
      decide +kernel
    obtain ⟨p, hrun, hcheck⟩ := (Option.any_eq_true _ _).mp hcheck
    obtain ⟨hfalse, hdata⟩ := of_decide_eq_true hcheck
    exact ⟨p, hrun, fun hkeeps => hdata (hkeeps hfalse).2.2.2.1⟩

/-! ## A save -/

/-- What a write of `b` leaves of the file; nothing where the file does not open. -/
def WriteIO.reached (b : Bytes) : WriteIO → Option Bytes
  | .refused => none
  | .short k _ => some (b.take k)
  | .full _ => some b

/-- A `save` that returns false leaves the contents of the file, one that returns true has replaced them by the packed
vault. -/
def SaveHonest (S : Sodium) (F : Format) (e : Env) (p : Proc) : Prop :=
  ((save S F e p).1 = .ok false → (save S F e p).2.fs p.vault.path = p.fs p.vault.path) ∧
  ((save S F e p).1 = .ok true → ∃ b, fileBytes S F e.nonce p.vault = .ok b ∧
    (save S F e p).2.fs p.vault.path = some b)

theorem writeFile_reached (fs : FS) (path : Bytes) (io : WriteIO) (b : Bytes) :
    (writeFile fs path io b).2 path = (io.reached b).or (fs path) := by
  cases io with
  | refused => rfl
  | short k good => exact Function.update_self ..
  | full good => exact Function.update_self ..

/-- `save` is honest about the file exactly when the bytes that reach it are what its reply says: nothing is packed, the
file is not opened, everything arrives and the stream is good, or the stream is bad and what arrived is what was there. -/
theorem save_atomic (hs : p.vault.state = .unlocked) : SaveHonest S F e p ↔
    ∀ b, fileBytes S F e.nonce p.vault = .ok b → e.write = .refused ∨
      (e.write.reportsGood ∧ e.write.reached b = some b) ∨
      (¬ e.write.reportsGood ∧ e.write.reached b = p.fs p.vault.path) := by
  unfold SaveHonest
  rw [save_unlocked hs]
  rcases Except.ok_or_error (fileBytes S F e.nonce p.vault) with ⟨b, hb⟩ | ⟨f, hb⟩
  · have hreports := writeFile_reports p.fs p.vault.path e.write b
    have hreached := writeFile_reached p.fs p.vault.path e.write b
    rw [hb]
    simp only [Except.ok.injEq, exists_eq_left', forall_eq', hreached]
    rw [← hreports]
    cases hio : e.write with
    | refused => simp [writeFile, WriteIO.reached]
    | short k good => cases good <;> simp [writeFile, WriteIO.reached]
    | full good => cases good <;> simp [writeFile, WriteIO.reached]
  · rw [hb]
    cases f <;> simp

/-- In a call where nothing fails a vault just created is saved honestly. -/
theorem save_atomic_created : SaveHonest .toy spec (Env.calm 8 .epoch)
    (create .toy spec (Env.calm 7 .epoch) (ascii "vault") (ascii "passphrase") ⟨.fresh, fun _ => none⟩).2 := by
  have hstate : (create .toy spec (Env.calm 7 .epoch) (ascii "vault") (ascii "passphrase")
      ⟨.fresh, fun _ => none⟩).2.vault.state = .unlocked := by
    decide +kernel
  exact (save_atomic hstate).mpr fun b _ => .inr (.inl ⟨rfl, rfl⟩)

/-- A write cut short after `k` bytes, with the stream good or not when it is asked. -/
def cutShort (k : Nat) (good : Bool) : Env := { Env.calm 8 .epoch with write := .short k good }

/-- A write that fails loses the file, and one whose bytes are still buffered when the stream is asked loses it and is
called a success. -/
theorem save_atomic_short : ∃ p, runs (Proc.step .toy spec) ⟨.fresh, fun _ => none⟩
    [.call (Env.calm 7 .epoch) (.create (ascii "vault") (ascii "passphrase"))] = some p ∧ p.vault.state = .unlocked ∧
    ¬ SaveHonest .toy spec (cutShort 3 false) p ∧ ¬ SaveHonest .toy spec (cutShort 3 true) p := by
  have hcheck : (runs (Proc.step .toy spec) ⟨.fresh, fun _ => none⟩
      [.call (Env.calm 7 .epoch) (.create (ascii "vault") (ascii "passphrase"))]).any fun p =>
      decide (p.vault.state = .unlocked ∧ (save .toy spec (cutShort 3 false) p).1 = .ok false ∧
        (save .toy spec (cutShort 3 false) p).2.fs p.vault.path ≠ p.fs p.vault.path ∧
        (save .toy spec (cutShort 3 true) p).1 = .ok true ∧
        (save .toy spec (cutShort 3 true) p).2.fs p.vault.path ≠
          (fileBytes .toy spec (cutShort 3 true).nonce p.vault).toOption) := by
    decide +kernel
  obtain ⟨p, hrun, hcheck⟩ := (Option.any_eq_true _ _).mp hcheck
  obtain ⟨hstate, hfalse, hlost, htrue, hcut⟩ := of_decide_eq_true hcheck
  refine ⟨p, hrun, hstate, fun hhonest => hlost (hhonest.1 hfalse), fun hhonest => ?_⟩
  obtain ⟨b, hb, hfile⟩ := hhonest.2 htrue
  rw [hb] at hcut
  exact hcut hfile

end Passdoq
