import Passdoq.Lib.Coupled
import Passdoq.Vault.LockState
import Passdoq.Vault.Codec
import Mathlib

/-!
# Two vaults that differ in their secrets

* `Entry.veil g` : an entry with its secret seen through `g`; `Vault.Alike`, `Proc.Alike` : objects and files that are the
  same but for what `g` does not show of the secrets;
* `exec_alike` : a call on such objects with such arguments ends the same way, and leaves such objects and files.
-/

namespace Passdoq
open Msgpack Crypto

variable (S : Sodium) (F : Format) (g : Bytes → Bytes)

/-! ## What is seen of a secret -/

/-- The entry with its secret seen through `g`. -/
def Entry.veil (entry : Entry) : Entry := { entry with secret := g entry.secret }

/-- Nothing is seen of a secret. -/
def hidden : Bytes → Bytes := fun _ => []

/-- Only its length is. -/
def lengths : Bytes → Bytes := fun secret => List.replicate secret.length 0

def veiled (es : OrdMap Bytes Entry) : OrdMap Bytes Entry := es.mapVal (Entry.veil g)

def Op.veil : Op → Op
  | .addEntry entry => .addEntry (entry.veil g)
  | .updateEntry id entry => .updateEntry id (entry.veil g)
  | op => op

def Reply.veil : Reply → Reply
  | .entry x => .entry (x.veil g)
  | .entries l => .entries (l.map (Entry.veil g))
  | r => r

section Outcome

variable {g} {e : Env} {op op' : Op} {es : OrdMap Bytes Entry}

theorem entries_veiled (es : OrdMap Bytes Entry) :
    (veiled g es).toList.map Prod.snd = (es.toList.map Prod.snd).map (Entry.veil g) := by
  rw [veiled, OrdMap.mapVal, List.map_map, List.map_map]
  rfl

theorem outcome_veil (hop : op.onEntries) (g : Bytes → Bytes) (e : Env) (es : OrdMap Bytes Entry) : (op.veil g).outcome e (veiled g es) =
    ((op.outcome e es).1.map (Reply.veil g), veiled g (op.outcome e es).2) := by
  cases op with
  | addEntry entry =>
    simp only [Op.veil, Op.outcome, veiled, OrdMap.mapVal_insert]
    rfl
  | updateEntry id entry =>
    simp only [Op.veil, Op.outcome, veiled, OrdMap.find?_mapVal]
    cases es.find? id with
    | none => rfl
    | some old =>
      simp only [Option.map_some, OrdMap.mapVal_insert]
      rfl
  | deleteEntry id =>
    simp only [Op.veil, Op.outcome, veiled, OrdMap.find?_mapVal, OrdMap.mapVal_erase, Option.isSome_map]
    rfl
  | getEntry id =>
    simp only [Op.veil, Op.outcome, veiled, OrdMap.find?_mapVal]
    cases es.find? id <;> rfl
  | listEntries =>
    simp only [Op.veil, Op.outcome, entries_veiled]
    rfl
  | search query =>
    simp only [Op.veil, Op.outcome, entries_veiled, List.filter_map]
    rfl
  | searchByTag tag =>
    simp only [Op.veil, Op.outcome, entries_veiled, List.filter_map]
    rfl
  | _ => cases hop

theorem veil_eq (h : op.veil g = op'.veil g) : op = op' ∨ op.onEntries ∧ op'.onEntries := by
  cases op <;> cases op' <;> first | exact .inr ⟨rfl, rfl⟩ | exact .inl h | cases h

end Outcome

/-! ## Objects and files -/

/-- The same object, but for the secrets. -/
structure Vault.Alike (v v' : Vault) : Prop where
  path : v.path = v'.path
  state : v.state = v'.state
  header : v.header = v'.header
  masterKey : v.masterKey = v'.masterKey
  dataKey : v.dataKey = v'.dataKey
  entries : veiled g v.entries = veiled g v'.entries

/-- The object with its secrets seen through `g`. -/
def Vault.veil (v : Vault) : Vault := { v with entries := veiled g v.entries }

/-- Saves of two vaults that are the same but for the secrets. -/
def Twins (b b' : Bytes) : Prop :=
  ∃ nonce v v', Vault.Alike g v v' ∧ Keyed v.entries ∧ Keyed v'.entries ∧
    Vault.fileBytes S F nonce v = .ok b ∧ Vault.fileBytes S F nonce v' = .ok b'

/-- The same contents, or two saves, whole or both cut short. -/
inductive FilesAlike : Option Bytes → Option Bytes → Prop
  | same (contents : Option Bytes) : FilesAlike contents contents
  | saved {b b' : Bytes} (h : Twins S F g b b') : FilesAlike (some b) (some b')
  | cut {b b' : Bytes} {k : Nat} (h : Twins S F g b b') (hk : k < b.length) (hk' : k < b'.length) :
    FilesAlike (some (b.take k)) (some (b'.take k))

structure Proc.Alike (p p' : Proc) : Prop where
  vault : p.vault.Alike g p'.vault
  files : ∀ path, FilesAlike S F g (p.fs path) (p'.fs path)

/-- The two saves come to the same end: both pack or neither does, and a write that is cut short cuts both or neither. -/
def Vault.SavesAgree (e : Env) (v v' : Vault) : Prop :=
  match Vault.fileBytes S F e.nonce v, Vault.fileBytes S F e.nonce v' with
  | .ok b, .ok b' => match e.write with
    | .short k _ => k < b.length ↔ k < b'.length
    | _ => True
  | .error _, .error _ => True
  | _, _ => False

/-- The saves of a call on two objects come to the same end. -/
def Op.SavesAgree (e : Env) (p p' : Proc) : Op → Prop
  | .create path passphrase => p.vault.state = .uninitialized →
    match deriveMasterKey S e.salt e.alloc e.beyond passphrase [] with
    | .ok d => Vault.SavesAgree S F e (Vault.created S e p path d).vault (Vault.created S e p' path d).vault
    | .error _ => True
  | .save => p.vault.state = .unlocked → Vault.SavesAgree S F e p.vault p'.vault
  | .rekey newDataKey => p.vault.state = .unlocked → if h : newDataKey.length = DATA_KEY_SIZE then
      match p.vault.masterKey with
      | some masterKey => Vault.SavesAgree S F e (Vault.rekeyed S e p masterKey ⟨newDataKey, h⟩).vault
          (Vault.rekeyed S e p' masterKey ⟨newDataKey, h⟩).vault
      | none => True
    else True
  | _ => True

instance Vault.decidableSavesAgree (e : Env) (v v' : Vault) : Decidable (Vault.SavesAgree S F e v v') :=
  match h : Vault.fileBytes S F e.nonce v, h' : Vault.fileBytes S F e.nonce v' with
  | .ok b, .ok b' => match hw : e.write with
    | .short k _ => decidable_of_iff (k < b.length ↔ k < b'.length) (by rw [Vault.SavesAgree, h, h', hw])
    | .refused => isTrue (by rw [Vault.SavesAgree, h, h', hw]; trivial)
    | .full _ => isTrue (by rw [Vault.SavesAgree, h, h', hw]; trivial)
  | .error _, .error _ => isTrue (by rw [Vault.SavesAgree, h, h']; trivial)
  | .ok _, .error _ => isFalse (by rw [Vault.SavesAgree, h, h']; exact not_false)
  | .error _, .ok _ => isFalse (by rw [Vault.SavesAgree, h, h']; exact not_false)

instance Op.decidableSavesAgree (e : Env) (p p' : Proc) :
    (op : Op) → Decidable (op.SavesAgree S F e p p')
  | .create path passphrase =>
    have : Decidable (match deriveMasterKey S e.salt e.alloc e.beyond passphrase [] with
        | .ok d => Vault.SavesAgree S F e (Vault.created S e p path d).vault (Vault.created S e p' path d).vault
        | .error _ => True) :=
      match deriveMasterKey S e.salt e.alloc e.beyond passphrase [] with
      | .ok d => Vault.decidableSavesAgree S F e (Vault.created S e p path d).vault (Vault.created S e p' path d).vault
      | .error _ => isTrue trivial
    inferInstanceAs (Decidable (p.vault.state = .uninitialized → _))
  | .save => inferInstanceAs (Decidable (p.vault.state = .unlocked → Vault.SavesAgree S F e p.vault p'.vault))
  | .rekey newDataKey =>
    have : ∀ h : newDataKey.length = DATA_KEY_SIZE, Decidable (match p.vault.masterKey with
        | some masterKey => Vault.SavesAgree S F e (Vault.rekeyed S e p masterKey ⟨newDataKey, h⟩).vault
          (Vault.rekeyed S e p' masterKey ⟨newDataKey, h⟩).vault
        | none => True) := fun h =>
      match p.vault.masterKey with
      | some masterKey => Vault.decidableSavesAgree S F e (Vault.rekeyed S e p masterKey ⟨newDataKey, h⟩).vault
          (Vault.rekeyed S e p' masterKey ⟨newDataKey, h⟩).vault
      | none => isTrue trivial
    inferInstanceAs (Decidable (p.vault.state = .unlocked → if _ : newDataKey.length = DATA_KEY_SIZE then _ else True))
  | .open _ | .unlock _ | .lock | .load | .addEntry _ | .updateEntry _ _ | .deleteEntry _ | .getEntry _ | .listEntries
  | .search _ | .searchByTag _ => isTrue trivial

/-! ## Loading -/

namespace Vault

open Eff

variable {S : Sodium} {F : Format} {g : Bytes → Bytes} {e : Env} {p p' : Proc} {v v' : Vault}

theorem Alike.veil_eq (h : Vault.Alike g v v') : v.veil g = v'.veil g := by
  unfold Vault.veil
  rw [h.path, h.state, h.header, h.masterKey, h.dataKey, h.entries]

theorem coupled_getVault : Coupled (Proc.Alike S F g) (Vault.Alike g) getVault getVault :=
  fun _ _ h => ⟨.ok h.vault, h⟩

theorem coupled_setVault {f f' : Vault → Vault} (h : ∀ v v', Vault.Alike g v v' → Vault.Alike g (f v) (f' v')) :
    Coupled (Proc.Alike S F g) Eq (setVault f) (setVault f') :=
  coupled_modify fun _ _ hp => ⟨h _ _ hp.vault, hp.files⟩

theorem coupled_setVault_bind {α : Type} {P : α → α → Prop} {f f' : Vault → Vault} {k k' : Unit → Act α}
    (h : ∀ v v', Vault.Alike g v v' → Vault.Alike g (f v) (f' v')) (hk : Coupled (Proc.Alike S F g) P (k ()) (k' ())) :
    Coupled (Proc.Alike S F g) P (setVault f >>= k) (setVault f' >>= k') :=
  coupled_modify_bind (fun _ _ hp => ⟨h _ _ hp.vault, hp.files⟩) hk

theorem coupled_orFalse {x y : Act Bool} (h : Coupled (Proc.Alike S F g) Eq x y) :
    Coupled (Proc.Alike S F g) Eq (orFalse x) (orFalse y) := h.catching (coupled_pure rfl)

theorem loadHeader_coupled (map : OrdMap Bytes Obj) : Coupled (Proc.Alike S F g) Eq (loadHeader map) (loadHeader map) := by
  unfold loadHeader
  refine coupled_lift_bind fun version => coupled_setVault_bind (fun v v' h => ?_) ?_
  · exact { h with header := by rw [h.header] }
  refine coupled_lift_bind fun salt => coupled_setVault_bind (fun v v' h => ?_) ?_
  · exact { h with header := by rw [h.header] }
  refine coupled_lift_bind fun key => coupled_setVault_bind (fun v v' h => ?_) ?_
  · exact { h with header := by rw [h.header] }
  refine coupled_lift_bind fun nonce => coupled_setVault fun v v' h => ?_
  exact { h with header := by rw [h.header] }

theorem deserializeLoop_coupled (stale : Int) (array : List Obj) :
    Coupled (Proc.Alike S F g) Eq (deserializeLoop stale array) (deserializeLoop stale array) := by
  induction array with
  | nil => exact coupled_pure rfl
  | cons item array ih =>
    refine coupled_lift_bind fun entry => coupled_setVault_bind (fun v v' h => { h with entries := ?_ }) ih
    show veiled g (v.entries.insert entry.id entry) = veiled g (v'.entries.insert entry.id entry)
    rw [veiled, veiled, OrdMap.mapVal_insert, OrdMap.mapVal_insert]
    exact congrArg (fun es => es.insert entry.id (entry.veil g)) h.entries

/-- The same payload gives the same entries. -/
theorem deserializeEntries_coupled (stale : Int) (data : Bytes) :
    Coupled (Proc.Alike S F g) Eq (deserializeEntries F stale data) (deserializeEntries F stale data) := by
  unfold deserializeEntries
  refine coupled_setVault_bind (fun v v' h => { h with entries := rfl }) ?_
  exact coupled_lift_bind fun obj => coupled_lift_bind fun array => deserializeLoop_coupled stale array

/-- What becomes of encrypted entries under a data key. -/
def readEntries (S : Sodium) (F : Format) (e : Env) (dataKey : Key) (map : OrdMap Bytes Obj) : Act Unit := do
  let encrypted ← Eff.lift (encryptedEntries map)
  let decrypted ← Eff.lift (decrypt S e.beyond encrypted dataKey.1)
  deserializeEntries F e.stale decrypted

theorem loadEntries_coupled {map map' : OrdMap Bytes Obj}
    (h : ∀ dataKey, Coupled (Proc.Alike S F g) Eq (readEntries S F e dataKey map) (readEntries S F e dataKey map')) :
    Coupled (Proc.Alike S F g) Eq (loadEntries S F e map) (loadEntries S F e map') := by
  unfold loadEntries
  refine coupled_getVault.bind fun v v' hv => ?_
  rw [← hv.state, ← hv.dataKey]
  cases v.state with
  | unlocked =>
    cases v.dataKey with
    | none => exact coupled_pure rfl
    | some dataKey => exact h dataKey
  | _ => exact coupled_pure rfl

theorem loadData_coupled (data : Bytes) : Coupled (Proc.Alike S F g) Eq (loadData S F e data) (loadData S F e data) := by
  unfold loadData
  refine coupled_lift_bind fun obj => coupled_lift_bind fun map => ?_
  refine (loadHeader_coupled map).bind fun _ _ _ => (loadEntries_coupled fun dataKey => ?_).bind fun _ _ _ => coupled_pure rfl
  unfold readEntries
  exact coupled_lift_bind fun encrypted => coupled_lift_bind fun decrypted => deserializeEntries_coupled e.stale decrypted

/-! ### Two saves -/

/-- What is seen of entries does not change the times that are written of them. -/
theorem veiled_reloaded (es : OrdMap Bytes Entry) : veiled g (reloaded es) = reloaded (veiled g es) := by
  rw [veiled, veiled, reloaded, reloaded, OrdMap.mapVal_mapVal, OrdMap.mapVal_mapVal]
  rfl

/-- What a save packs, and what it comes from. -/
structure Packed (S : Sodium) (F : Format) (h : VaultHeader) (dataKey : Key) (nonce : Nonce) (es : OrdMap Bytes Entry)
    (b : Bytes) (serialized mac : Bytes) : Prop where
  keyed : Keyed es
  size : es.size < 2 ^ 32
  serializes : serializeEntries F es = .ok serialized
  packed : packFile F h ⟨S.easy dataKey nonce serialized, nonce.1, mac⟩ = .ok b

theorem packed_of_twins (hS : S.Correct) {b b' : Bytes} (ht : Twins S F g b b') : ∃ h dataKey nonce es es' m m' mac mac',
    Packed S F h dataKey nonce es b m mac ∧ Packed S F h dataKey nonce es' b' m' mac' ∧ veiled g es = veiled g es' := by
  obtain ⟨nonce, v, v', hv, hk, hk', hb, hb'⟩ := ht
  obtain ⟨m, dk, mac, hm, hdk, hp⟩ := fileBytes_ok hb
  obtain ⟨m', dk', mac', hm', hdk', hp'⟩ := fileBytes_ok hb'
  rw [← hv.dataKey, hdk] at hdk'
  obtain rfl := Option.some.inj hdk'
  rw [← hv.header] at hp'
  exact ⟨v.header, dk, nonce, v.entries, v'.entries, m, m', mac, mac', ⟨hk, fileBytes_size hS hb, hm, hp⟩,
    ⟨hk', fileBytes_size hS hb', hm', hp'⟩, hv.entries⟩

section Packed

variable {h : VaultHeader} {dataKey : Key} {nonce : Nonce} {es es' : OrdMap Bytes Entry} {b b' m m' mac mac' : Bytes}

theorem Packed.deserialize (hF : F.Lawful) (hp : Packed S F h dataKey nonce es b m mac) (stale : Int) (p : Proc) :
    deserializeEntries F stale m p = (.ok (), p.assign p.vault.header (reloaded es)) := by
  have hdecode := decode_serializeEntries hF hp.keyed hp.serializes stale
  rw [Nat.mod_eq_of_lt hp.size, OrdMap.take_of_size_le (Nat.le_refl _)] at hdecode
  exact deserializeEntries_ok hdecode p

/-- Two saves are opened by the same keys, and to what is the same but for the secrets. -/
theorem readEntries_packed (hS : S.Correct) (hU : S.Seals) (hF : F.Lawful) (hp : Packed S F h dataKey nonce es b m mac)
    (hp' : Packed S F h dataKey nonce es' b' m' mac') (hes : veiled g es = veiled g es') (key : Key) :
    Coupled (Proc.Alike S F g) Eq
      (readEntries S F e key (recordMap (headerFields h ⟨S.easy dataKey nonce m, nonce.1, mac⟩)))
      (readEntries S F e key (recordMap (headerFields h ⟨S.easy dataKey nonce m', nonce.1, mac'⟩))) := by
  have hnonce : Block.pad NONCE_SIZE nonce.1 = nonce := Block.pad_of_length nonce.2
  have hlong : ∀ m, ¬ (S.easy dataKey nonce m).length < MAC_SIZE := by
    intro m
    rw [hS.length_easy]
    omega
  unfold readEntries
  rw [encryptedEntries_record, encryptedEntries_record, lift_ok_bind, lift_ok_bind]
  rcases hU dataKey key nonce with hopen | hclosed
  · have hdecrypt : ∀ m, decrypt S e.beyond ⟨S.easy dataKey nonce m, nonce.1, []⟩ key.1 = .ok m := by
      intro m
      rw [decrypt_key hS (Nat.le_of_eq nonce.2.symm), hnonce, hopen]
    rw [hdecrypt, hdecrypt, lift_ok_bind, lift_ok_bind]
    intro s t hst
    rw [hp.deserialize hF, hp'.deserialize hF]
    refine ⟨.ok rfl, { hst.vault with entries := ?_ }, hst.files⟩
    show veiled g (reloaded es) = veiled g (reloaded es')
    rw [veiled_reloaded, veiled_reloaded, hes]
  · have hdecrypt : ∀ m, decrypt S e.beyond ⟨S.easy dataKey nonce m, nonce.1, []⟩ key.1 =
        .error (.exn (.runtimeError "Decryption failed (authentication error)")) := by
      intro m
      rw [decrypt_key hS (Nat.le_of_eq nonce.2.symm), hnonce, hclosed]
      exact if_neg (hlong m)
    rw [hdecrypt, hdecrypt, lift_error_bind]
    exact coupled_throw _

theorem loadData_packed (hF : F.Lawful) (hp : Packed S F h dataKey nonce es b m mac) :
    loadData S F e b = (do
      loadHeader (recordMap (headerFields h ⟨S.easy dataKey nonce m, nonce.1, mac⟩))
      loadEntries S F e (recordMap (headerFields h ⟨S.easy dataKey nonce m, nonce.1, mac⟩))
      return true) := by
  obtain ⟨obj, hobj, hmap⟩ := Except.bind_eq_ok.mp (fileMap_packFile hF hp.packed)
  rw [loadData, hobj, lift_ok_bind, hmap, lift_ok_bind]

theorem loadData_twins (hS : S.Correct) (hU : S.Seals) (hF : F.Lawful) (ht : Twins S F g b b') :
    Coupled (Proc.Alike S F g) Eq (loadData S F e b) (loadData S F e b') := by
  obtain ⟨h, dataKey, nonce, es, es', m, m', mac, mac', hp, hp', hes⟩ := packed_of_twins hS ht
  rw [loadData_packed hF hp, loadData_packed hF hp']
  have hheader : Coupled (Proc.Alike S F g) Eq
      (loadHeader (recordMap (headerFields h ⟨S.easy dataKey nonce m, nonce.1, mac⟩)))
      (loadHeader (recordMap (headerFields h ⟨S.easy dataKey nonce m', nonce.1, mac'⟩))) := by
    intro s t hst
    rw [loadHeader_ok decodeHeader_record, loadHeader_ok decodeHeader_record]
    exact ⟨.ok rfl, { hst.vault with header := rfl }, hst.files⟩
  refine hheader.bind fun _ _ _ => (loadEntries_coupled fun key => ?_).bind fun _ _ _ => coupled_pure rfl
  exact readEntries_packed hS hU hF hp hp' hes key

/-- A save that was cut short does not unpack. -/
theorem loadData_cut (hW : F.Whole) (hp : Packed S F h dataKey nonce es b m mac) {k : Nat} (hk : k < b.length) :
    loadData S F e (b.take k) = Eff.throw (.exn .unpackError) := by
  have hnone : unpack F (b.take k) = .error (.exn .unpackError) := by
    rw [unpack, hW _ _ (packFile_packs hp.packed) k hk]
  rw [loadData, hnone, lift_error_bind]

end Packed

theorem readFile_same {fs fs' : FS} {path : Bytes} (h : FilesAlike S F g (fs path) (fs' path)) (io : ReadIO) :
    Same (FilesAlike S F g) (readFile fs path io) (readFile fs' path io) := by
  unfold readFile
  generalize fs path = c at h ⊢
  generalize fs' path = c' at h ⊢
  cases h with
  | same => exact .refl .same _
  | saved ht =>
    cases io with
    | refused => exact .ok (.same none)
    | broken => exact .error _
    | whole => exact .ok (.saved ht)
  | cut ht hk hk' =>
    cases io with
    | refused => exact .ok (.same none)
    | broken => exact .error _
    | whole => exact .ok (.cut ht hk hk')

theorem load_coupled (hS : S.Correct) (hU : S.Seals) (hF : F.Lawful) (hW : F.Whole) :
    Coupled (Proc.Alike S F g) Eq (load S F e) (load S F e) := by
  have hread : ∀ p p' : Proc, p.Alike S F g p' →
      Same (FilesAlike S F g) (readFile p.fs p.vault.path e.read) (readFile p'.fs p'.vault.path e.read) := by
    intro p p' hp
    rw [← hp.vault.path]
    exact readFile_same (hp.files _) e.read
  unfold load
  refine coupled_orFalse (coupled_get.bind fun p p' hp => (coupled_lift (hread p p' hp)).bind fun file file' hfile => ?_)
  cases hfile with
  | same =>
    cases file with
    | none => exact coupled_pure rfl
    | some data => exact loadData_coupled data
  | saved ht => exact loadData_twins hS hU hF ht
  | cut ht hk hk' =>
    obtain ⟨h, dataKey, nonce, es, es', m, m', mac, mac', hp, hp', -⟩ := packed_of_twins hS ht
    have hcut := loadData_cut (S := S) (e := e) hW hp hk
    have hcut' := loadData_cut (S := S) (e := e) hW hp' hk'
    show Coupled (Proc.Alike S F g) Eq (loadData S F e _) (loadData S F e _)
    rw [hcut, hcut']
    exact coupled_throw _

/-! ## Saving -/

theorem files_update {fs fs' : FS} {path : Bytes} {c c' : Option Bytes} (h : ∀ path, FilesAlike S F g (fs path) (fs' path))
    (hc : FilesAlike S F g c c') (path' : Bytes) :
    FilesAlike S F g (Function.update fs path c path') (Function.update fs' path c' path') := by
  by_cases hpath : path' = path
  · subst hpath
    rw [Function.update_self, Function.update_self]
    exact hc
  · rw [Function.update_of_ne hpath, Function.update_of_ne hpath]
    exact h path'

/-- What a write leaves of two saves of one kind. -/
theorem writeFile_alike {fs fs' : FS} {b b' : Bytes} {io : WriteIO} (path : Bytes) (h : ∀ path, FilesAlike S F g (fs path) (fs' path))
    (ht : Twins S F g b b') (hcut : ∀ k good, io = .short k good → (k < b.length ↔ k < b'.length)) :
    (writeFile fs path io b).1 = (writeFile fs' path io b').1 ∧
      ∀ path', FilesAlike S F g ((writeFile fs path io b).2 path') ((writeFile fs' path io b').2 path') := by
  cases io with
  | refused => exact ⟨rfl, h⟩
  | full good => exact ⟨rfl, files_update h (.saved ht)⟩
  | short k good =>
    refine ⟨rfl, files_update h ?_⟩
    by_cases hk : k < b.length
    · exact .cut ht hk ((hcut k good rfl).mp hk)
    · have hk' : ¬ k < b'.length := fun hlt => hk ((hcut k good rfl).mpr hlt)
      rw [List.take_of_length_le (not_lt.mp hk), List.take_of_length_le (not_lt.mp hk')]
      exact .saved ht

/-- The invariants of an object in a run. -/
structure Sound (v : Vault) : Prop where
  keyed : Keyed v.entries
  lock : LockInv v

theorem save_alike (hp : p.Alike S F g p') (hv : Sound p.vault) (hv' : Sound p'.vault)
    (hagree : p.vault.state = .unlocked → SavesAgree S F e p.vault p'.vault) :
    Same Eq (save S F e p).1 (save S F e p').1 ∧ (save S F e p).2.Alike S F g (save S F e p').2 := by
  by_cases hs : p.vault.state = .unlocked
  · have hs' : p'.vault.state = .unlocked := hp.vault.state ▸ hs
    replace hagree := hagree hs
    unfold SavesAgree at hagree
    have htrap := fileBytes_ne_trap (S := S) (F := F) (hv.lock.unlocked hs).2 e.nonce
    have htrap' := fileBytes_ne_trap (S := S) (F := F) (hv'.lock.unlocked hs').2 e.nonce
    rw [save_unlocked hs, save_unlocked hs']
    rcases Except.ok_or_error (fileBytes S F e.nonce p.vault) with ⟨b, hb⟩ | ⟨f, hb⟩ <;>
      rcases Except.ok_or_error (fileBytes S F e.nonce p'.vault) with ⟨b', hb'⟩ | ⟨f', hb'⟩ <;> rw [hb, hb'] at hagree
    · have ht : Twins S F g b b' := ⟨e.nonce, p.vault, p'.vault, hp.vault, hv.keyed, hv'.keyed, hb, hb'⟩
      have hcut : ∀ k good, e.write = .short k good → (k < b.length ↔ k < b'.length) := by
        intro k good hwrite
        rw [hwrite] at hagree
        exact hagree
      obtain ⟨hgood, hfiles⟩ := writeFile_alike p.vault.path hp.files ht hcut
      rw [hb, hb', ← hp.vault.path]
      exact ⟨.ok (by rw [hgood]), hp.vault, hfiles⟩
    · exact hagree.elim
    · exact hagree.elim
    · rw [hb] at htrap ⊢
      rw [hb'] at htrap' ⊢
      cases f with
      | trap => exact absurd rfl htrap
      | exn x =>
        cases f' with
        | trap => exact absurd rfl htrap'
        | exn x' => exact ⟨.ok rfl, hp⟩
  · have hs' : p'.vault.state ≠ .unlocked := hp.vault.state ▸ hs
    rw [save_locked hs, save_locked hs']
    exact ⟨.ok rfl, hp⟩

/-- A secret that does not fit into the file is not saved. -/
theorem save_large {id : Bytes} {entry : Entry} (hs : p.vault.state = .unlocked) (hk : p.vault.dataKey.isSome)
    (hf : p.vault.entries.find? id = some entry) (hlarge : 2 ^ 32 ≤ entry.secret.length) :
    (save S F e p).1 = .ok false := by
  rw [save_unlocked hs]
  rcases Except.ok_or_error (fileBytes S F e.nonce p.vault) with ⟨b, hb⟩ | ⟨f, hb⟩
  · obtain ⟨m, dk, mac, hm, -, -⟩ := fileBytes_ok hb
    have hsmall := serializeEntries_secret hm hf
    omega
  · cases f with
    | exn x => rw [hb]
    | trap => exact absurd hb (fileBytes_ne_trap hk e.nonce)

/-! ## The other operations -/

theorem created_alike (hp : p.Alike S F g p') (path : Bytes) (d : DerivedKey) :
    (created S e p path d).Alike S F g (created S e p' path d) :=
  ⟨⟨rfl, rfl, rfl, rfl, rfl, hp.vault.entries⟩, hp.files⟩

theorem rekeyed_alike (hp : p.Alike S F g p') (masterKey newDataKey : Key) :
    (rekeyed S e p masterKey newDataKey).Alike S F g (rekeyed S e p' masterKey newDataKey) := by
  refine ⟨⟨hp.vault.path, rfl, ?_, rfl, rfl, hp.vault.entries⟩, hp.files⟩
  show p.vault.header.rewrap S masterKey newDataKey e.keyNonce = p'.vault.header.rewrap S masterKey newDataKey e.keyNonce
  rw [hp.vault.header]

theorem create_alike (hp : p.Alike S F g p') (hv : Sound p.vault) (hv' : Sound p'.vault) {path passphrase : Bytes}
    (hagree : (Op.create path passphrase).SavesAgree S F e p p') :
    Same Eq (create S F e path passphrase p).1 (create S F e path passphrase p').1 ∧
      (create S F e path passphrase p).2.Alike S F g (create S F e path passphrase p').2 := by
  by_cases hs : p.vault.state = .uninitialized
  · have hs' : p'.vault.state = .uninitialized := hp.vault.state ▸ hs
    replace hagree := hagree hs
    rcases Except.ok_or_error (deriveMasterKey S e.salt e.alloc e.beyond passphrase []) with ⟨d, hd⟩ | ⟨f, hd⟩
    · rw [hd] at hagree
      have hsound : ∀ p : Proc, Sound p.vault → Sound (created S e p path d).vault :=
        fun p hv => ⟨hv.keyed, lockInv_assign (lockInv_withPath (lockInv_withKeys p _ _) _) _ fun hn => absurd rfl hn⟩
      rw [create_derived hs hd, create_derived hs' hd]
      exact save_alike (created_alike hp path d) (hsound p hv) (hsound p' hv') fun _ => hagree
    · rw [create_refused hs hd, create_refused hs' hd]
      exact ⟨.error f, { hp.vault with path := rfl }, hp.files⟩
  · have hs' : p'.vault.state ≠ .uninitialized := hp.vault.state ▸ hs
    have hfalse : ∀ p : Proc, p.vault.state ≠ .uninitialized → create S F e path passphrase p = (.ok false, p) := by
      intro p hs
      simp [create, hs]
    rw [hfalse p hs, hfalse p' hs']
    exact ⟨.ok rfl, hp⟩

theorem rekey_alike (hp : p.Alike S F g p') (hv : Sound p.vault) (hv' : Sound p'.vault) {newDataKey : Bytes}
    (hagree : (Op.rekey newDataKey).SavesAgree S F e p p') :
    Same Eq (rekey S F e newDataKey p).1 (rekey S F e newDataKey p').1 ∧
      (rekey S F e newDataKey p).2.Alike S F g (rekey S F e newDataKey p').2 := by
  by_cases hs : p.vault.state = .unlocked
  · have hs' : p'.vault.state = .unlocked := hp.vault.state ▸ hs
    replace hagree := hagree hs
    by_cases hlen : newDataKey.length = DATA_KEY_SIZE
    · obtain ⟨mk, hm⟩ := Option.isSome_iff_exists.mp (hv.lock.unlocked hs).1
      obtain ⟨dk, hd⟩ := Option.isSome_iff_exists.mp (hv.lock.unlocked hs).2
      have hm' : p'.vault.masterKey = some mk := hp.vault.masterKey ▸ hm
      have hd' : p'.vault.dataKey = some dk := hp.vault.dataKey ▸ hd
      rw [dif_pos hlen, hm] at hagree
      have hsound : ∀ p : Proc, Sound p.vault → Sound (rekeyed S e p mk ⟨newDataKey, hlen⟩).vault :=
        fun p hv => ⟨hv.keyed, lockInv_assign (lockInv_withKeys p _ _) _ fun hn => absurd rfl hn⟩
      rw [rekey_wraps hs hlen hd hm, rekey_wraps hs' hlen hd' hm']
      exact save_alike (rekeyed_alike hp mk _) (hsound p hv) (hsound p' hv') fun _ => hagree
    · have hfalse : ∀ p : Proc, p.vault.state = .unlocked → rekey S F e newDataKey p = (.ok false, p) := by
        intro p hs
        simp [rekey, ensureUnlocked_apply, hs, hlen]
      rw [hfalse p hs, hfalse p' hs']
      exact ⟨.ok rfl, hp⟩
  · have hs' : p'.vault.state ≠ .unlocked := hp.vault.state ▸ hs
    have hthrows : ∀ p : Proc, p.vault.state ≠ .unlocked → rekey S F e newDataKey p = (.error lockedError, p) := by
      intro p hs
      simp [rekey, ensureUnlocked_apply, hs, lockedError]
    rw [hthrows p hs, hthrows p' hs']
    exact ⟨.error _, hp⟩

theorem open_coupled (hS : S.Correct) (hU : S.Seals) (hF : F.Lawful) (hW : F.Whole) (path : Bytes) :
    Coupled (Proc.Alike S F g) Eq («open» S F e path) («open» S F e path) := by
  unfold «open»
  refine coupled_getVault.bind fun v v' hv => ?_
  rw [← hv.state]
  split_ifs
  · exact coupled_pure rfl
  refine coupled_setVault_bind (fun v v' h => { h with path := rfl }) ?_
  refine (load_coupled hS hU hF hW).bind fun loaded _ hloaded => ?_
  rw [← hloaded]
  split_ifs
  · exact coupled_setVault_bind (fun v v' h => { h with state := rfl }) (coupled_pure rfl)
  · exact coupled_pure rfl

theorem unlock_coupled (hS : S.Correct) (hU : S.Seals) (hF : F.Lawful) (hW : F.Whole) (passphrase : Bytes) :
    Coupled (Proc.Alike S F g) Eq (unlock S F e passphrase) (unlock S F e passphrase) := by
  unfold unlock
  refine coupled_getVault.bind fun v v' hv => ?_
  rw [← hv.state, ← hv.header]
  split_ifs
  · exact coupled_pure rfl
  refine coupled_lift_bind fun derived => coupled_orFalse (coupled_lift_bind fun b => ?_)
  refine coupled_setVault_bind (fun v v' h => { h with masterKey := rfl }) (coupled_lift_bind fun dataKey => ?_)
  refine coupled_setVault_bind (fun v v' h => { h with dataKey := rfl }) ?_
  exact coupled_setVault_bind (fun v v' h => { h with state := rfl }) (load_coupled hS hU hF hW)

theorem lock_coupled : Coupled (Proc.Alike S F g) Eq lock lock := by
  unfold lock
  refine coupled_getVault.bind fun v v' hv => ?_
  rw [← hv.state]
  split_ifs
  · exact coupled_setVault fun v v' h => ⟨h.path, rfl, h.header, rfl, rfl, rfl⟩
  · exact coupled_pure rfl

end Vault

/-! ## Calls -/

section Calls

open Eff Vault

variable {S : Sodium} {F : Format} {g : Bytes → Bytes} {e : Env} {p p' : Proc} {op op' : Op}

/-- Two ends of a call that are the same but for the secrets. -/
def SameEnd (S : Sodium) (F : Format) (g : Bytes → Bytes) (r r' : Except Fault Reply × Proc) : Prop :=
  r.1.map (Reply.veil g) = r'.1.map (Reply.veil g) ∧ r.2.Alike S F g r'.2

theorem sameEnd_map {α : Type} {x x' : Act α} {f : α → Reply}
    (h : Same Eq (x p).1 (x' p').1 ∧ (x p).2.Alike S F g (x' p').2) : SameEnd S F g ((f <$> x) p) ((f <$> x') p') := by
  obtain ⟨hr, hp⟩ := h
  replace hr := same_eq.mp hr
  unfold SameEnd
  rw [map_apply_snd, map_apply_snd, map_apply, map_apply]
  refine ⟨?_, hp⟩
  revert hr
  rcases x p with ⟨r, t⟩
  rcases x' p' with ⟨r', t'⟩
  rintro rfl
  cases r <;> rfl

theorem onEntries_alike (hp : p.Alike S F g p') (hop : op.onEntries) (hop' : op'.onEntries)
    (h : op.veil g = op'.veil g) : SameEnd S F g (exec S F e op p) (exec S F e op' p') := by
  by_cases hs : p.vault.state = .unlocked
  · have hs' : p'.vault.state = .unlocked := hp.vault.state ▸ hs
    have hout := outcome_veil hop g e p.vault.entries
    rw [h, hp.vault.entries, outcome_veil hop', Prod.mk.injEq] at hout
    rw [exec_onEntries hop hs, exec_onEntries hop' hs']
    exact ⟨hout.1.symm, { hp.vault with entries := hout.2.symm }, hp.files⟩
  · have hs' : p'.vault.state ≠ .unlocked := hp.vault.state ▸ hs
    rw [exec_locked (Op.needsUnlocked_of_onEntries hop) hs, exec_locked (Op.needsUnlocked_of_onEntries hop') hs']
    exact ⟨rfl, hp⟩

/-- A call on objects and files that are the same but for the secrets, with arguments that are, ends the same way and
leaves objects and files that are. -/
theorem exec_alike (hS : S.Correct) (hU : S.Seals) (hF : F.Lawful) (hW : F.Whole) (hp : p.Alike S F g p')
    (hv : Sound p.vault) (hv' : Sound p'.vault) (h : op.veil g = op'.veil g) (hagree : op.SavesAgree S F e p p') :
    SameEnd S F g (exec S F e op p) (exec S F e op' p') := by
  rcases veil_eq h with rfl | ⟨hop, hop'⟩
  · cases op with
    | create path passphrase => exact sameEnd_map (create_alike hp hv hv' hagree)
    | «open» path => exact sameEnd_map (open_coupled hS hU hF hW path p p' hp)
    | unlock passphrase => exact sameEnd_map (unlock_coupled hS hU hF hW passphrase p p' hp)
    | lock => exact sameEnd_map (lock_coupled p p' hp)
    | load => exact sameEnd_map (load_coupled hS hU hF hW p p' hp)
    | save => exact sameEnd_map (save_alike hp hv hv' hagree)
    | rekey newDataKey => exact sameEnd_map (rekey_alike hp hv hv' hagree)
    | _ => exact onEntries_alike hp rfl rfl rfl
  · exact onEntries_alike hp hop hop' h

theorem Effect.sound (h : Effect S F e p op p') (hv : Sound p.vault) : Sound p'.vault :=
  ⟨h.keyed hv.keyed, h.lockInv hv.lock⟩

/-! ### What the files show -/

/-- The header of a file, as anyone can read it. -/
def fileHeader (F : Format) (data : Bytes) : Except Fault VaultHeader := do
  let map ← fileMap F data
  decodeHeader map

theorem FilesAlike.header (hF : F.Lawful) (hW : F.Whole) {c c' : Option Bytes} (h : FilesAlike S F g c c') :
    c.map (fileHeader F) = c'.map (fileHeader F) := by
  have hheader : ∀ nonce v b, Vault.fileBytes S F nonce v = .ok b → fileHeader F b = .ok v.header := by
    intro nonce v b hb
    obtain ⟨m, dk, mac, -, -, hp⟩ := fileBytes_ok hb
    rw [fileHeader, fileMap_packFile hF hp, Except.ok_bind, decodeHeader_record]
  have hcut : ∀ nonce v b, Vault.fileBytes S F nonce v = .ok b → ∀ k < b.length,
      fileHeader F (b.take k) = .error (.exn .unpackError) := by
    intro nonce v b hb k hk
    obtain ⟨m, dk, mac, -, -, hp⟩ := fileBytes_ok hb
    rw [fileHeader, fileMap_take hW hp hk]
    rfl
  cases h with
  | same => rfl
  | saved ht =>
    obtain ⟨nonce, v, v', hv, -, -, hb, hb'⟩ := ht
    rw [Option.map_some, Option.map_some, hheader _ _ _ hb, hheader _ _ _ hb', hv.header]
  | cut ht hk hk' =>
    obtain ⟨nonce, v, v', -, -, -, hb, hb'⟩ := ht
    rw [Option.map_some, Option.map_some, hcut _ _ _ hb _ hk, hcut _ _ _ hb' _ hk']

end Calls

/-! ## Secrets of the same lengths -/

section Lengths

open Eff Vault

variable {S : Sodium} {F : Format} {e : Env} {p p' : Proc} {v v' : Vault}

/-- The same exception, or as many bytes. -/
def SameLength (x y : Except Fault Bytes) : Prop := Same (fun b b' : Bytes => b.length = b'.length) x y

theorem sameLength_refl (x : Except Fault Bytes) : SameLength x x :=
  Same.refl (P := fun b b' : Bytes => b.length = b'.length) (fun _ => rfl) x

theorem SameLength.append {x y x' y' : Except Fault Bytes} (h : SameLength x y) (h' : SameLength x' y') :
    SameLength (x >>= fun b => x' >>= fun bs => .ok (b ++ bs)) (y >>= fun b => y' >>= fun bs => .ok (b ++ bs)) :=
  Same.bind h fun b b' hb => Same.bind h' fun bs bs' hbs => .ok (by rw [List.length_append, List.length_append, hb, hbs])

theorem SameLength.prepend {x y : Except Fault Bytes} (h : SameLength x y) (start : Bytes) :
    SameLength (x >>= fun b => .ok (start ++ b)) (y >>= fun b => .ok (start ++ b)) :=
  Same.bind h fun b b' hb => .ok (by rw [List.length_append, List.length_append, hb])

theorem packVector_length {s s' : Bytes} (h : s.length = s'.length) : SameLength (packVector F s) (packVector F s') := by
  unfold packVector
  rw [h]
  have hsize : Same Eq (checkedSize s'.length) (checkedSize s'.length) := .refl (fun _ => rfl) _
  refine Same.bind hsize fun n n' hn => .ok ?_
  rw [hn, List.length_append, List.length_append, h]

theorem packField_length {x y : Except Fault Bytes} (key : String) (h : SameLength x y) :
    SameLength (packField F key x) (packField F key y) := (sameLength_refl _).append h

theorem packEach_sameLength {α β : Type} {pack : α → Except Fault Bytes} {pack' : β → Except Fault Bytes} {l : List α}
    {l' : List β} (h : List.Forall₂ (fun a b => SameLength (pack a) (pack' b)) l l') :
    SameLength (packEach pack l) (packEach pack' l') := by
  induction h with
  | nil => exact sameLength_refl _
  | cons hab _ ih => exact hab.append ih

theorem packEntry_sameLength {entry entry' : Entry} (h : entry.veil lengths = entry'.veil lengths) :
    SameLength (packEntry F entry) (packEntry F entry') := by
  have hsecret : entry.secret.length = entry'.secret.length := by
    have hlengths : (lengths entry.secret).length = (lengths entry'.secret).length :=
      congrArg (fun entry : Entry => entry.secret.length) h
    rwa [lengths, lengths, List.length_replicate, List.length_replicate] at hlengths
  have hrest : ({ entry with secret := [] } : Entry) = { entry' with secret := [] } :=
    congrArg (fun entry : Entry => { entry with secret := [] }) h
  obtain ⟨id, name, username, secret, metadata, tags, created, modified⟩ := entry
  obtain ⟨id', name', username', secret', metadata', tags', created', modified'⟩ := entry'
  simp only [Entry.mk.injEq, true_and] at hrest
  obtain ⟨rfl, rfl, rfl, rfl, rfl, rfl, rfl⟩ := hrest
  refine SameLength.prepend (packEach_sameLength ?_) _
  have hfield := packField_length (F := F) "secret" (packVector_length (F := F) hsecret)
  exact .cons (sameLength_refl _) (.cons (sameLength_refl _) (.cons (sameLength_refl _) (.cons hfield
    (.cons (sameLength_refl _) (.cons (sameLength_refl _) (.cons (sameLength_refl _) (.cons (sameLength_refl _) .nil)))))))

theorem serializeEntries_sameLength {es es' : OrdMap Bytes Entry} (h : veiled lengths es = veiled lengths es') :
    SameLength (serializeEntries F es) (serializeEntries F es') := by
  have hlist : es.toList.map (fun p => (p.1, p.2.veil lengths)) = es'.toList.map fun p => (p.1, p.2.veil lengths) :=
    congrArg OrdMap.toList h
  have hsize : es.size = es'.size := by
    have hlen := congrArg List.length hlist
    rwa [List.length_map, List.length_map] at hlen
  unfold serializeEntries
  rw [hsize]
  refine SameLength.prepend (packEach_sameLength ?_) _
  rw [← List.forall₂_eq_eq_eq, List.forall₂_map_left_iff, List.forall₂_map_right_iff] at hlist
  exact hlist.imp fun p p' hp => packEntry_sameLength (congrArg Prod.snd hp)

theorem packFile_sameLength (h : VaultHeader) {c c' : EncryptedData} (hc : c.ciphertext.length = c'.ciphertext.length)
    (hnonce : c.nonce = c'.nonce) : SameLength (packFile F h c) (packFile F h c') := by
  unfold packFile
  rw [hnonce]
  have hcipher := packField_length (F := F) "ciphertext" (packVector_length (F := F) hc)
  have hentries : ∀ nonce, SameLength (packEach id [packField F "ciphertext" (packVector F c.ciphertext), nonce])
      (packEach id [packField F "ciphertext" (packVector F c'.ciphertext), nonce]) :=
    fun _ => packEach_sameLength (.cons hcipher (.cons (sameLength_refl _) .nil))
  refine Same.bind (sameLength_refl _) fun fields fields' hfields => Same.bind (sameLength_refl _) fun key key' hkey =>
    Same.bind (hentries _) fun b b' hb => .ok ?_
  simp only [List.length_append, hfields, hkey, hb]

theorem fileBytes_sameLength (hS : S.Correct) (h : Vault.Alike lengths v v') (nonce : Nonce) :
    SameLength (Vault.fileBytes S F nonce v) (Vault.fileBytes S F nonce v') := by
  unfold Vault.fileBytes
  rw [← h.dataKey, ← h.header]
  refine Same.bind (serializeEntries_sameLength h.entries) fun m m' hm => ?_
  cases v.dataKey with
  | none => exact .error _
  | some dataKey =>
    show SameLength (encrypt S nonce m dataKey.1 >>= packFile F v.header) (encrypt S nonce m' dataKey.1 >>= packFile F v.header)
    rw [encrypt_key, encrypt_key]
    exact packFile_sameLength v.header (by rw [hS.length_easy, hS.length_easy, hm]) rfl

/-- Saves of secrets of the same lengths come to the same end. -/
theorem Vault.savesAgree_of_lengths (hS : S.Correct) (h : Vault.Alike lengths v v') : Vault.SavesAgree S F e v v' := by
  have hlen := fileBytes_sameLength (F := F) hS h e.nonce
  unfold Vault.SavesAgree
  revert hlen
  generalize Vault.fileBytes S F e.nonce v = x
  generalize Vault.fileBytes S F e.nonce v' = y
  intro hlen
  cases hlen with
  | error f => trivial
  | ok hb =>
    cases e.write with
    | short k good =>
      show k < _ ↔ k < _
      rw [hb]
    | _ => trivial

theorem Op.savesAgree_of_lengths (hS : S.Correct) (hp : p.Alike S F lengths p') (op : Op) : op.SavesAgree S F e p p' := by
  cases op with
  | create path passphrase =>
    intro _
    cases deriveMasterKey S e.salt e.alloc e.beyond passphrase [] with
    | error f => trivial
    | ok d => exact Vault.savesAgree_of_lengths hS (created_alike hp path d).vault
  | save => exact fun _ => Vault.savesAgree_of_lengths hS hp.vault
  | rekey newDataKey =>
    intro _
    split_ifs with hlen
    cases p.vault.masterKey with
    | none => trivial
    | some masterKey => exact Vault.savesAgree_of_lengths hS (rekeyed_alike hp masterKey _).vault
  | _ => trivial

end Lengths

end Passdoq
