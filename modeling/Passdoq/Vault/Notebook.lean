import Passdoq.Vault.Atomic
import Passdoq.Vault.Bounds
import Passdoq.Vault.Interface
import Passdoq.Vault.KeyWrap
import Passdoq.Lib.MsgpackFormat

/-!
# What a vault is for

A notebook holds entries under the clasp of a passphrase. It lies in a file, as far as whole seconds, and on the desk of a
process that has opened it. Of the cryptography nothing is left but the question whether a passphrase opens a clasp, and of
the file format nothing but the length of a file.

* `Clasp`, `Notebook`, `Desk`, `Shelf` : the abstract state; `Medium` : what it needs to know of the concrete one;
* `Shelf.create`, ..., `notebookBackend` : the operations; a load is given no meaning where the notebook in the file is not
  under the clasp on the desk;
* `Represents` : the vault object and the files stand for a shelf;
* `notebook_refines` : the vault does what the notebook does.
-/

namespace Passdoq
open Msgpack Crypto Vault

/-! ## Notebooks -/

/-- The passphrase of a notebook, and the random bytes drawn when it was clasped. -/
structure Clasp where
  passphrase : Bytes
  salt : Salt
  dataKey : Key
  keyNonce : Nonce
  deriving DecidableEq

structure Notebook where
  clasp : Clasp
  entries : OrdMap Bytes Entry

/-- What a process has in front of it: nothing yet, a clasped notebook, or an open one. -/
inductive Desk
  | closed (path : Bytes)
  | locked (path : Bytes) (clasp : Clasp)
  | unlocked (path : Bytes) (clasp : Clasp) (entries : OrdMap Bytes Entry)

structure Shelf where
  desk : Desk
  notebooks : Bytes → Option Notebook

/-- Whether a passphrase opens a clasp, and how many bytes a notebook takes, `none` when it does not fit into a file. -/
structure Medium where
  opens : Clasp → Bytes → Bool
  size : Nonce → Clasp → OrdMap Bytes Entry → Option Nat

namespace Desk

def path : Desk → Bytes
  | .closed path | .locked path _ | .unlocked path _ _ => path

def state : Desk → VaultState
  | .closed _ => .uninitialized
  | .locked _ _ => .locked
  | .unlocked _ _ _ => .unlocked

end Desk

namespace Shelf

variable (M : Medium) (e : Env) (t : Shelf)

/-- The notebook that a read in the world `e` finds. -/
def found (path : Bytes) : Option Notebook := if e.read = .whole then t.notebooks path else none

/-- Write the open notebook out; one that is cut short is lost. -/
def save : Bool × Shelf :=
  match t.desk with
  | .unlocked path clasp es => match M.size e.nonce clasp es, e.write with
    | none, _ => (false, t)
    | some _, .refused => (false, t)
    | some n, .short k good =>
      (good, { t with notebooks := Function.update t.notebooks path (if n ≤ k then some ⟨clasp, reloaded es⟩ else none) })
    | some _, .full good => (good, { t with notebooks := Function.update t.notebooks path (some ⟨clasp, reloaded es⟩) })
  | _ => (false, t)

def load : Option (Bool × Shelf) :=
  match t.found e t.desk.path, t.desk with
  | none, _ => some (false, t)
  | some _, .closed _ => some (true, t)
  | some nb, .locked path _ => some (true, { t with desk := .locked path nb.clasp })
  | some nb, .unlocked path clasp _ =>
    if nb.clasp = clasp then some (true, { t with desk := .unlocked path clasp nb.entries }) else none

def outOfMemory : Exn := .runtimeError "Argon2id key derivation failed"

def create (path passphrase : Bytes) : Except Exn Bool × Shelf :=
  match t.desk with
  | .closed _ =>
    if e.alloc then
      let r := save M e { t with desk := .unlocked path ⟨passphrase, e.salt, e.dataKey, e.keyNonce⟩ ∅ }
      (.ok r.1, r.2)
    else (.error outOfMemory, { t with desk := .closed path })
  | _ => (.ok false, t)

def «open» (path : Bytes) : Bool × Shelf :=
  match t.desk, t.found e path with
  | .closed _, none => (false, { t with desk := .closed path })
  | .closed _, some nb => (true, { t with desk := .locked path nb.clasp })
  | _, _ => (false, t)

def unlock (passphrase : Bytes) : Option (Except Exn Bool × Shelf) :=
  match t.desk with
  | .locked path clasp =>
    if ¬ e.alloc then some (.error outOfMemory, t)
    else if M.opens clasp passphrase then
      (load e { t with desk := .unlocked path clasp ∅ }).map fun r => (.ok r.1, r.2)
    else some (.ok false, t)
  | _ => some (.ok false, t)

def lock : Shelf :=
  match t.desk with
  | .unlocked path clasp _ => { t with desk := .locked path clasp }
  | _ => t

def isLocked : Exn := .runtimeError "Vault is locked"

def rekey (newDataKey : Bytes) : Except Exn Bool × Shelf :=
  match t.desk with
  | .unlocked path clasp es =>
    if h : newDataKey.length = DATA_KEY_SIZE then
      let r := save M e { t with desk := .unlocked path { clasp with dataKey := ⟨newDataKey, h⟩, keyNonce := e.keyNonce } es }
      (.ok r.1, r.2)
    else (.ok false, t)
  | _ => (.error isLocked, t)

/-- An operation on the entries of the open notebook. -/
def onEntries {α : Type} (f : OrdMap Bytes Entry → Except Exn α × OrdMap Bytes Entry) : Except Exn α × Shelf :=
  match t.desk with
  | .unlocked path clasp es => ((f es).1, { t with desk := .unlocked path clasp (f es).2 })
  | _ => (.error isLocked, t)

def call : (op : Op) → Option (Except Exn op.Result × Shelf)
  | .create path passphrase => some (t.create M e path passphrase)
  | .open path => some (.ok (t.open e path).1, (t.open e path).2)
  | .unlock passphrase => t.unlock M e passphrase
  | .lock => some (.ok (), t.lock)
  | .load => (t.load e).map fun r => (.ok r.1, r.2)
  | .save => some (.ok (t.save M e).1, (t.save M e).2)
  | .rekey newDataKey => some (t.rekey M e newDataKey)
  | .addEntry entry => some (t.onEntries fun es => (.ok (generateId e.id), es.insert (generateId e.id)
      { entry with id := generateId e.id, created := e.now, modified := e.now }))
  | .updateEntry id entry => some (t.onEntries fun es => match es.find? id with
    | none => (.ok false, es)
    | some old => (.ok true, es.insert id { entry with id := id, created := old.created, modified := e.now }))
  | .deleteEntry id => some (t.onEntries fun es => (.ok (es.find? id).isSome, es.erase id))
  | .getEntry id => some (t.onEntries fun es => match es.find? id with
    | none => (.error (.runtimeError "Entry not found"), es)
    | some entry => (.ok entry, es))
  | .listEntries => some (t.onEntries fun es => (.ok (es.toList.map Prod.snd), es))
  | .search query => some (t.onEntries fun es => (.ok ((es.toList.map Prod.snd).filter fun entry =>
      contains entry.name query || contains entry.username query), es))
  | .searchByTag tag => some (t.onEntries fun es => (.ok ((es.toList.map Prod.snd).filter fun entry =>
      entry.tags.contains tag), es))

end Shelf

def notebookBackend (M : Medium) : Backend Shelf :=
  ⟨fun t => t.desk.state, fun e t op => t.call M e op, fun t => { t with desk := .closed [] }⟩

/-! ## Vaults and notebooks -/

section Concrete

variable (S : Sodium) (F : Format)

namespace Clasp

variable (clasp : Clasp)

def key : Key := S.pwhash clasp.passphrase clasp.salt

def header : VaultHeader := ⟨1, clasp.salt.1, S.easy (clasp.key S) clasp.keyNonce clasp.dataKey.1, clasp.keyNonce.1⟩

/-- The vault object that holds an open notebook. -/
def vault (path : Bytes) (es : OrdMap Bytes Entry) : Vault :=
  ⟨path, .unlocked, clasp.header S, some (clasp.key S), some clasp.dataKey, es⟩

end Clasp

/-- A passphrase opens a clasp when it derives the same key, and a notebook is as long as its file. -/
def vaultMedium : Medium :=
  ⟨fun clasp passphrase => S.pwhash passphrase clasp.salt = clasp.key S,
    fun nonce clasp es => (fileBytes S F nonce (clasp.vault S [] es)).toOption.map List.length⟩

/-- The file holds the notebook; where there is none, no vault can be opened. -/
def InFile : Option Notebook → Option Bytes → Prop
  | none, file => ∀ data map, file = some data → fileMap F data ≠ .ok map
  | some nb, file => ∃ nonce es b, file = some b ∧ fileBytes S F nonce (nb.clasp.vault S [] es) = .ok b ∧ Keyed es ∧
      nb.entries = reloaded es

def OnDesk (v : Vault) : Desk → Prop
  | .closed path => v.state = .uninitialized ∧ v.path = path ∧ v.entries = ∅
  | .locked path clasp => v.state = .locked ∧ v.path = path ∧ v.header = clasp.header S ∧ v.entries = ∅
  | .unlocked path clasp es => v = clasp.vault S path es ∧ Keyed es

/-- The vault object and the files stand for the shelf. -/
structure Represents (p : Proc) (t : Shelf) : Prop where
  desk : OnDesk S p.vault t.desk
  files : ∀ path, InFile S F (t.notebooks path) (p.fs path)

end Concrete

variable {S : Sodium} {F : Format} {e : Env} {p : Proc} {t t' : Shelf} {path passphrase : Bytes}

namespace Represents

theorem state_eq (h : Represents S F p t) : p.vault.state = t.desk.state := by
  have hdesk := h.desk
  cases hd : t.desk with
  | closed path =>
    rw [hd] at hdesk
    exact hdesk.1
  | locked path clasp =>
    rw [hd] at hdesk
    exact hdesk.1
  | unlocked path clasp es =>
    rw [hd] at hdesk
    rw [hdesk.1]
    rfl

theorem path_eq (h : Represents S F p t) : p.vault.path = t.desk.path := by
  have hdesk := h.desk
  cases hd : t.desk with
  | closed path =>
    rw [hd] at hdesk
    exact hdesk.2.1
  | locked path clasp =>
    rw [hd] at hdesk
    exact hdesk.2.1
  | unlocked path clasp es =>
    rw [hd] at hdesk
    rw [hdesk.1]
    rfl

theorem withDesk (h : Represents S F p t) {v : Vault} {d : Desk} (hd : OnDesk S v d) :
    Represents S F ⟨v, p.fs⟩ { t with desk := d } := ⟨hd, h.files⟩

theorem put (h : Represents S F p t) {file : Option Bytes} {nb : Option Notebook} (hf : InFile S F nb file) (path : Bytes) :
    Represents S F { p with fs := Function.update p.fs path file }
      { t with notebooks := Function.update t.notebooks path nb } := by
  refine ⟨h.desk, fun path' => ?_⟩
  by_cases hp : path' = path
  · subst hp
    simpa only [Function.update_self] using hf
  · simpa only [Function.update_of_ne hp] using h.files path'

end Represents

/-! ## Reading and writing -/

/-- Where the file holds no notebook, or is not read, a load returns false and leaves everything. -/
theorem load_notFound (h : Represents S F p t) (hn : t.found e p.vault.path = none) :
    load S F e p = (.ok false, p) := by
  by_cases hr : e.read = .whole
  · rw [Shelf.found, if_pos hr] at hn
    have hfile := h.files p.vault.path
    rw [hn] at hfile
    have hleft : (load S F e p).2 = p :=
      load_left_nothing fun data map hdata _ hmap => hfile data map hdata hmap
    have hfalse : (load S F e p).1 = .ok false := by
      refine load_false_iff.mpr ?_
      cases hdata : p.fs p.vault.path with
      | none => exact .inl fun data hd => by cases hdata.symm.trans hd
      | some data =>
        rcases Except.ok_or_error (fileMap F data) with ⟨map, hmap⟩ | ⟨f, hmap⟩
        · exact absurd hmap (hfile data map hdata)
        · cases f with
          | trap => exact absurd hmap (fileMap_ne_trap data)
          | exn x =>
            refine .inr ⟨data, x, hdata, hr, ?_⟩
            rw [decodeFile, hmap]
            rfl
    exact Prod.ext hfalse hleft
  · exact load_of_not_read fun data _ => hr

theorem found_saved (h : Represents S F p t) {nb : Notebook} (hn : t.found e path = some nb) :
    e.read = .whole ∧ ∃ nonce es b, p.fs path = some b ∧ fileBytes S F nonce (nb.clasp.vault S [] es) = .ok b ∧
      Keyed es ∧ nb.entries = reloaded es := by
  rw [Shelf.found, Option.ite_none_right_eq_some] at hn
  have hfile := h.files path
  rw [hn.2] at hfile
  exact ⟨hn.1, hfile⟩

/-- A vault that is not unlocked takes the clasp from the file and keeps its entries. -/
theorem load_clasped (hF : F.Lawful) (h : Represents S F p t) {nb : Notebook} (hn : t.found e p.vault.path = some nb)
    (hs : p.vault.state ≠ .unlocked) :
    load S F e p = (.ok true, p.assign (nb.clasp.header S) p.vault.entries) := by
  obtain ⟨hr, nonce, es, b, hfs, hb, -, -⟩ := found_saved h hn
  exact load_ok hfs hr (decodeFile_header hF hb e hs)

/-- A vault that is unlocked under the clasp of the file takes the entries from it. -/
theorem load_opened (hS : S.Correct) (hF : F.Lawful) (h : Represents S F p t) {nb : Notebook}
    (hn : t.found e p.vault.path = some nb) {es : OrdMap Bytes Entry} (hv : p.vault = nb.clasp.vault S path es) :
    load S F e p = (.ok true, ⟨nb.clasp.vault S path nb.entries, p.fs⟩) := by
  obtain ⟨hr, nonce, es', b, hfs, hb, hk, hnb⟩ := found_saved h hn
  have hdec : decodeFile S F e p.vault b = .ok (nb.clasp.header S, reloaded es') := by
    refine decodeFile_fileBytes hS hF (v := nb.clasp.vault S [] es') hk hb e ?_ ?_ <;> rw [hv] <;> rfl
  rw [load_ok hfs hr hdec, hnb, Proc.assign, hv]
  rfl

theorem keyed_reloaded {es : OrdMap Bytes Entry} (h : Keyed es) : Keyed (reloaded es) := h.mapVal fun _ => rfl

theorem load_represents (hS : S.Correct) (hF : F.Lawful) (h : Represents S F p t) {b : Bool}
    (hl : t.load e = some (b, t')) : ∃ p', load S F e p = (.ok b, p') ∧ Represents S F p' t' := by
  have hpath := h.path_eq
  have hdesk := h.desk
  unfold Shelf.load at hl
  rw [← hpath] at hl
  cases hn : t.found e p.vault.path with
  | none =>
    rw [hn] at hl
    obtain ⟨rfl, rfl⟩ := Prod.mk.inj (Option.some.inj hl)
    exact ⟨p, load_notFound h hn, h⟩
  | some nb =>
    rw [hn] at hl
    cases hd : t.desk with
    | closed path =>
      rw [hd] at hl hdesk
      obtain ⟨rfl, rfl⟩ := Prod.mk.inj (Option.some.inj hl)
      refine ⟨_, load_clasped hF h hn (by rw [hdesk.1]; decide), ⟨?_, h.files⟩⟩
      rw [hd]
      exact hdesk
    | locked path clasp =>
      rw [hd] at hl hdesk
      obtain ⟨rfl, rfl⟩ := Prod.mk.inj (Option.some.inj hl)
      exact ⟨_, load_clasped hF h hn (by rw [hdesk.1]; decide), h.withDesk ⟨hdesk.1, hdesk.2.1, rfl, hdesk.2.2.2⟩⟩
    | unlocked path clasp es =>
      rw [hd] at hl hdesk
      dsimp only at hl
      split_ifs at hl with hclasp
      obtain ⟨rfl, rfl⟩ := Prod.mk.inj (Option.some.inj hl)
      subst hclasp
      obtain ⟨-, nonce, es', bytes, -, -, hk, hnb⟩ := found_saved h hn
      exact ⟨_, load_opened hS hF h hn hdesk.1, h.withDesk ⟨rfl, by rw [hnb]; exact keyed_reloaded hk⟩⟩

/-- A file cut short holds no notebook. -/
theorem inFile_torn (hW : F.Whole) {nonce : Nonce} {v : Vault} {b : Bytes} (hb : fileBytes S F nonce v = .ok b)
    {k : Nat} (hk : k < b.length) : InFile S F none (some (b.take k)) := by
  obtain ⟨serialized, dataKey, mac, -, -, hpack⟩ := fileBytes_ok hb
  intro data map hdata hmap
  obtain rfl := Option.some.inj hdata
  rw [fileMap_take hW hpack hk] at hmap
  cases hmap

theorem inFile_saved {nonce : Nonce} {clasp : Clasp} {es : OrdMap Bytes Entry} {b : Bytes} (hk : Keyed es)
    (hb : fileBytes S F nonce (clasp.vault S path es) = .ok b) :
    InFile S F (some ⟨clasp, reloaded es⟩) (some b) := ⟨nonce, es, b, rfl, hb, hk, rfl⟩

/-- A shelf's `save` is the vault's. -/
theorem save_represents (hW : F.Whole) (h : Represents S F p t) :
    ∃ p', save S F e p = (.ok (t.save (vaultMedium S F) e).1, p') ∧
      Represents S F p' (t.save (vaultMedium S F) e).2 := by
  have hstate := h.state_eq
  have hdesk := h.desk
  obtain ⟨desk, notebooks⟩ := t
  unfold Shelf.save
  cases desk with
  | closed path =>
    have hne : p.vault.state ≠ .unlocked := by
      rw [hstate]
      exact nofun
    exact ⟨p, save_locked hne, h⟩
  | locked path clasp =>
    have hne : p.vault.state ≠ .unlocked := by
      rw [hstate]
      exact nofun
    exact ⟨p, save_locked hne, h⟩
  | unlocked path clasp es =>
    obtain ⟨hv, hk⟩ := hdesk
    have hpath : p.vault.path = path := by
      rw [hv]
      rfl
    have hfile : fileBytes S F e.nonce (clasp.vault S [] es) = fileBytes S F e.nonce p.vault := by
      rw [hv]
      rfl
    have hsize : (vaultMedium S F).size e.nonce clasp es =
        (fileBytes S F e.nonce p.vault).toOption.map List.length := by
      rw [← hfile]
      rfl
    dsimp only
    rw [hsize, save_unlocked hstate, hpath]
    rcases Except.ok_or_error (fileBytes S F e.nonce p.vault) with ⟨b, hb⟩ | ⟨f, hb⟩
    · have hsaved := inFile_saved hk (hfile.trans hb)
      rw [hb]
      cases e.write with
      | refused => exact ⟨p, rfl, h⟩
      | short k good =>
        refine ⟨_, rfl, ?_⟩
        by_cases hle : b.length ≤ k
        · have hput := h.put hsaved path
          simpa [writeFile, Except.toOption, hle, List.take_of_length_le hle] using hput
        · have hput := h.put (inFile_torn hW hb (Nat.lt_of_not_le hle)) path
          simpa [writeFile, Except.toOption, hle] using hput
      | full good => exact ⟨_, rfl, h.put hsaved path⟩
    · have hdata : p.vault.dataKey.isSome := by
        rw [hv]
        rfl
      rw [hb]
      cases f with
      | trap => exact absurd hb (fileBytes_ne_trap hdata _)
      | exn x => exact ⟨p, rfl, h⟩

/-! ## Passphrases -/

variable (S passphrase) in
theorem derive_salt (alloc : Bool) (beyond : Option Bytes) (fresh salt : Salt) :
    deriveMasterKey S fresh alloc beyond passphrase salt.1 =
      if alloc then .ok ⟨S.pwhash passphrase salt, salt.1⟩ else .error (.exn Shelf.outOfMemory) := by
  have hle : SALT_SIZE ≤ salt.1.length := Nat.le_of_eq salt.2.symm
  have hne : salt.1 ≠ [] := by
    intro hnil
    have hlen := salt.2
    rw [hnil] at hlen
    cases hlen
  rw [deriveMasterKey, if_neg hne, readFixed_of_le hle, Except.ok_bind, Block.pad_of_length salt.2]
  rfl

variable (S passphrase) in
theorem derive_fresh (alloc : Bool) (beyond : Option Bytes) (fresh : Salt) :
    deriveMasterKey S fresh alloc beyond passphrase [] =
      if alloc then .ok ⟨S.pwhash passphrase fresh, fresh.1⟩ else .error (.exn Shelf.outOfMemory) := by
  rw [← derive_salt S passphrase alloc beyond fresh fresh]
  simp only [deriveMasterKey, if_true, ite_self]

/-- What a passphrase makes of the wrapped key of a clasp. -/
theorem unwrap_clasp (hS : S.Correct) (clasp : Clasp) (e : Env) (key : Key) :
    unwrap S e (clasp.header S) key = match S.openEasy key clasp.keyNonce (S.easy (clasp.key S) clasp.keyNonce clasp.dataKey.1) with
      | some plaintext => .ok plaintext
      | none => .error (.exn (.runtimeError "Decryption failed (authentication error)")) := by
  have hnonce : Block.pad NONCE_SIZE (clasp.header S).dataKeyNonce = clasp.keyNonce :=
    Block.pad_of_length clasp.keyNonce.2
  have hlong : ¬ (clasp.header S).encryptedDataKey.length < MAC_SIZE := by
    change ¬ (S.easy (clasp.key S) clasp.keyNonce clasp.dataKey.1).length < MAC_SIZE
    rw [hS.length_easy]
    omega
  rw [unwrap, decrypt_key hS (Nat.le_of_eq clasp.keyNonce.2.symm), hnonce, if_neg hlong]
  rfl

/-- Unlocking a vault that is under a clasp: a passphrase that derives another key opens nothing. -/
theorem unlock_clasped (hS : S.Correct) (hR : S.Rejects) {clasp : Clasp} (hs : p.vault.state = .locked)
    (hh : p.vault.header = clasp.header S) :
    unlock S F e passphrase p =
      if e.alloc then
        if S.pwhash passphrase clasp.salt = clasp.key S then load S F e (p.withKeys (clasp.key S) clasp.dataKey)
        else (.ok false, p)
      else (.error (.exn Shelf.outOfMemory), p) := by
  have hunwrap := unwrap_clasp hS clasp e (S.pwhash passphrase clasp.salt)
  have hderive := derive_salt S passphrase e.alloc e.beyond e.salt clasp.salt
  have hsalt : p.vault.header.salt = clasp.salt.1 := by
    rw [hh]
    rfl
  rw [← hh] at hunwrap
  rw [← hsalt] at hderive
  by_cases ha : e.alloc = true
  · rw [if_pos ha] at hderive ⊢
    by_cases hkey : S.pwhash passphrase clasp.salt = clasp.key S
    · rw [hkey, hS.open_easy] at hunwrap
      rw [hkey] at hderive
      rw [if_pos hkey, unlock_loads hs hderive hunwrap (copyInto_of_length clasp.dataKey.2 _)]
    · have hnone : S.openEasy (S.pwhash passphrase clasp.salt) clasp.keyNonce
          (S.easy (clasp.key S) clasp.keyNonce clasp.dataKey.1) = none :=
        hR clasp.passphrase clasp.salt passphrase clasp.salt clasp.keyNonce clasp.dataKey.1 (Ne.symm hkey)
      rw [hnone, unwrap] at hunwrap
      rw [if_neg hkey]
      simp [unlock, hs, hderive, hunwrap, orFalse_apply]
  · rw [if_neg ha] at hderive ⊢
    simp [unlock, hs, hderive]

/-! ## Every operation -/

theorem create_represents (hW : F.Whole) (h : Represents S F p t) (path passphrase : Bytes) :
    ∃ p', returned (create S F e path passphrase p) = some ((t.create (vaultMedium S F) e path passphrase).1, p') ∧
      Represents S F p' (t.create (vaultMedium S F) e path passphrase).2 := by
  have hstate := h.state_eq
  have hderive := derive_fresh S passphrase e.alloc e.beyond e.salt
  have hdesk := h.desk
  obtain ⟨desk, notebooks⟩ := t
  unfold Shelf.create
  cases desk with
  | closed path₀ =>
    dsimp only
    split_ifs at hderive ⊢
    · rw [create_derived hstate hderive]
      have hcreated : Represents S F (created S e p path ⟨S.pwhash passphrase e.salt, e.salt.1⟩)
          ⟨.unlocked path ⟨passphrase, e.salt, e.dataKey, e.keyNonce⟩ ∅, notebooks⟩ := by
        refine ⟨⟨?_, keyed_empty⟩, h.files⟩
        change Vault.mk path .unlocked _ _ _ p.vault.entries = _
        rw [hdesk.2.2]
        rfl
      obtain ⟨p', hp', hrep⟩ := save_represents (e := e) hW hcreated
      rw [hp']
      exact ⟨p', rfl, hrep⟩
    · rw [create_refused hstate hderive]
      exact ⟨p.withPath path, rfl, ⟨hdesk.1, rfl, hdesk.2.2⟩, h.files⟩
  | _ =>
    rcases create_cases S F e p path passphrase with ⟨-, hc⟩ | ⟨hn, -⟩ | ⟨hn, -⟩
    · rw [hc]
      exact ⟨p, rfl, h⟩
    · cases hstate.symm.trans hn
    · cases hstate.symm.trans hn

theorem open_represents (hF : F.Lawful) (h : Represents S F p t) (path : Bytes) :
    ∃ p', «open» S F e path p = (.ok (t.open e path).1, p') ∧ Represents S F p' (t.open e path).2 := by
  have hstate := h.state_eq
  have hdesk := h.desk
  obtain ⟨desk, notebooks⟩ := t
  unfold Shelf.open
  cases desk with
  | closed path₀ =>
    have hat : Represents S F (p.withPath path) ⟨.closed path, notebooks⟩ := ⟨⟨hdesk.1, rfl, hdesk.2.2⟩, h.files⟩
    cases hn : Shelf.found e ⟨.closed path₀, notebooks⟩ path with
    | none =>
      have hload := load_notFound hat hn
      rcases open_cases S F e p path with ⟨hne, -⟩ | ⟨-, p', hl, -⟩ | ⟨-, r, p', hl, -, ho⟩
      · exact absurd hstate hne
      · cases hload.symm.trans hl
      · obtain ⟨rfl, rfl⟩ := Prod.mk.inj (hload.symm.trans hl)
        exact ⟨_, ho, hat⟩
    | some nb =>
      have hlocked : (p.withPath path).vault.state ≠ .unlocked := by
        rw [hat.state_eq]
        exact nofun
      have hload := load_clasped hF hat hn hlocked
      rcases open_cases S F e p path with ⟨hne, -⟩ | ⟨-, p', hl, ho⟩ | ⟨-, r, p', hl, hr, -⟩
      · exact absurd hstate hne
      · obtain ⟨-, rfl⟩ := Prod.mk.inj (hload.symm.trans hl)
        exact ⟨_, ho, ⟨rfl, rfl, rfl, hdesk.2.2⟩, h.files⟩
      · exact absurd (Prod.mk.inj (hload.symm.trans hl)).1.symm hr
  | _ =>
    rcases open_cases S F e p path with ⟨-, ho⟩ | ⟨hn, -⟩ | ⟨hn, -⟩
    · exact ⟨p, ho, h⟩
    · cases hstate.symm.trans hn
    · cases hstate.symm.trans hn

theorem unlock_represents (hS : S.Correct) (hR : S.Rejects) (hF : F.Lawful) (h : Represents S F p t)
    {r : Except Exn Bool} (hu : t.unlock (vaultMedium S F) e passphrase = some (r, t')) :
    ∃ p', returned (unlock S F e passphrase p) = some (r, p') ∧ Represents S F p' t' := by
  have hstate := h.state_eq
  have hdesk := h.desk
  obtain ⟨desk, notebooks⟩ := t
  unfold Shelf.unlock at hu
  cases desk with
  | locked path clasp =>
    obtain ⟨-, hpath, hheader, hes⟩ := hdesk
    have hopens : (vaultMedium S F).opens clasp passphrase = decide (S.pwhash passphrase clasp.salt = clasp.key S) := rfl
    dsimp only at hu
    rw [hopens] at hu
    rw [unlock_clasped hS hR hstate hheader]
    cases ha : e.alloc with
    | false =>
      rw [ha] at hu
      obtain ⟨rfl, rfl⟩ := Prod.mk.inj (Option.some.inj hu)
      exact ⟨p, rfl, h⟩
    | true =>
      rw [ha] at hu
      change (if decide _ = true then _ else _) = _ at hu
      rw [if_pos rfl]
      simp only [decide_eq_true_eq] at hu
      split_ifs at hu ⊢ with hkey
      · obtain ⟨⟨b, t₁⟩, hl, hr⟩ := Option.map_eq_some_iff.mp hu
        obtain ⟨rfl, rfl⟩ := Prod.mk.inj hr
        have hat : Represents S F (p.withKeys (clasp.key S) clasp.dataKey) ⟨.unlocked path clasp ∅, notebooks⟩ := by
          refine ⟨⟨?_, keyed_empty⟩, h.files⟩
          change Vault.mk p.vault.path .unlocked p.vault.header _ _ p.vault.entries = _
          rw [hpath, hheader, hes]
          rfl
        obtain ⟨p', hp', hrep⟩ := load_represents hS hF hat hl
        rw [hp']
        exact ⟨p', rfl, hrep⟩
      · obtain ⟨rfl, rfl⟩ := Prod.mk.inj (Option.some.inj hu)
        exact ⟨p, rfl, h⟩
  | _ =>
    obtain ⟨rfl, rfl⟩ := Prod.mk.inj (Option.some.inj hu)
    rcases unlock_cases S F e p passphrase with ⟨-, hx⟩ | ⟨hn, -⟩ | ⟨hn, -⟩
    · rw [hx]
      exact ⟨p, rfl, h⟩
    · cases hstate.symm.trans hn
    · cases hstate.symm.trans hn

theorem lock_represents (h : Represents S F p t) :
    Represents S F (if p.vault.state = .unlocked then locked p else p) t.lock := by
  have hstate := h.state_eq
  have hdesk := h.desk
  obtain ⟨desk, notebooks⟩ := t
  unfold Shelf.lock
  cases desk with
  | unlocked path clasp es =>
    have hu : p.vault.state = .unlocked := hstate
    rw [if_pos hu]
    refine ⟨⟨rfl, h.path_eq, ?_, rfl⟩, h.files⟩
    change p.vault.header = _
    rw [hdesk.1]
    rfl
  | _ =>
    have hu : p.vault.state ≠ .unlocked := by
      rw [hstate]
      exact nofun
    rw [if_neg hu]
    exact h

theorem rekey_represents (hW : F.Whole) (h : Represents S F p t) (newDataKey : Bytes) :
    ∃ p', returned (rekey S F e newDataKey p) = some ((t.rekey (vaultMedium S F) e newDataKey).1, p') ∧
      Represents S F p' (t.rekey (vaultMedium S F) e newDataKey).2 := by
  have hstate := h.state_eq
  have hdesk := h.desk
  obtain ⟨desk, notebooks⟩ := t
  unfold Shelf.rekey
  cases desk with
  | unlocked path clasp es =>
    obtain ⟨hv, hk⟩ := hdesk
    dsimp only
    split_ifs with hlen
    · have hd : p.vault.dataKey = some clasp.dataKey := by
        rw [hv]
        rfl
      have hm : p.vault.masterKey = some (clasp.key S) := by
        rw [hv]
        rfl
      rw [rekey_wraps hstate hlen hd hm]
      have hrekeyed : Represents S F (rekeyed S e p (clasp.key S) ⟨newDataKey, hlen⟩)
          ⟨.unlocked path { clasp with dataKey := ⟨newDataKey, hlen⟩, keyNonce := e.keyNonce } es, notebooks⟩ := by
        refine ⟨⟨?_, hk⟩, h.files⟩
        rw [rekeyed, Proc.assign, Proc.withKeys, hv]
        rfl
      obtain ⟨p', hp', hrep⟩ := save_represents (e := e) hW hrekeyed
      rw [hp']
      exact ⟨p', rfl, hrep⟩
    · have hx : rekey S F e newDataKey p = (.ok false, p) := by
        have hu : p.vault.state = .unlocked := hstate
        simp [rekey, ensureUnlocked_apply, hu, hlen]
      rw [hx]
      exact ⟨p, rfl, h⟩
  | _ =>
    rcases rekey_cases S F e p newDataKey with ⟨-, hx⟩ | ⟨hn, -⟩ | ⟨hn, -⟩ | ⟨hn, -⟩
    · rw [hx]
      exact ⟨p, rfl, h⟩
    · cases hstate.symm.trans hn
    · cases hstate.symm.trans hn
    · cases hstate.symm.trans hn

/-- An operation that needs an unlocked vault and works on its entries. -/
structure OnEntries {α : Type} (x : Act α) (f : OrdMap Bytes Entry → Except Exn α × OrdMap Bytes Entry) : Prop where
  unlocked : ∀ {p}, p.vault.state = .unlocked →
    returned (x p) = some ((f p.vault.entries).1, p.assign p.vault.header (f p.vault.entries).2)
  otherwise : ∀ {p}, p.vault.state ≠ .unlocked → x p = (.error lockedError, p)
  keyed : ∀ {es}, Keyed es → Keyed (f es).2

theorem OnEntries.represents {α : Type} {x : Act α} {f : OrdMap Bytes Entry → Except Exn α × OrdMap Bytes Entry}
    (hx : OnEntries x f) (h : Represents S F p t) :
    ∃ p', returned (x p) = some ((t.onEntries f).1, p') ∧ Represents S F p' (t.onEntries f).2 := by
  have hstate := h.state_eq
  have hdesk := h.desk
  obtain ⟨desk, notebooks⟩ := t
  unfold Shelf.onEntries
  cases desk with
  | unlocked path clasp es =>
    obtain ⟨hv, hk⟩ := hdesk
    have hes : p.vault.entries = es := by
      rw [hv]
      rfl
    have hrun := hx.unlocked (p := p) hstate
    rw [hes] at hrun
    refine ⟨_, hrun, ⟨?_, hx.keyed hk⟩, h.files⟩
    rw [Proc.assign, hv]
    rfl
  | _ =>
    have hne : p.vault.state ≠ .unlocked := by
      rw [hstate]
      intro hunlocked
      cases hunlocked
    rw [hx.otherwise hne]
    exact ⟨p, rfl, h⟩

theorem onEntries_add (e : Env) (entry : Entry) : OnEntries (addEntry e entry) fun es =>
    (.ok (generateId e.id), es.insert (generateId e.id)
      { entry with id := generateId e.id, created := e.now, modified := e.now }) where
  unlocked hs := by
    rw [addEntry_unlocked hs]
    rfl
  otherwise hs := by simp [addEntry, ensureUnlocked_apply, hs, lockedError]
  keyed hk := hk.insert { entry with id := generateId e.id, created := e.now, modified := e.now }

theorem onEntries_update (e : Env) (id : Bytes) (entry : Entry) : OnEntries (updateEntry e id entry) fun es =>
    match es.find? id with
    | none => (.ok false, es)
    | some old => (.ok true, es.insert id { entry with id := id, created := old.created, modified := e.now }) where
  unlocked {p} hs := by
    cases hf : p.vault.entries.find? id with
    | none =>
      rw [updateEntry_none hs hf]
      rfl
    | some old =>
      rw [updateEntry_some hs hf]
      rfl
  otherwise hs := by simp [updateEntry, ensureUnlocked_apply, hs, lockedError]
  keyed {es} hk := by
    cases hf : es.find? id with
    | none => exact hk
    | some old => exact hk.insert { entry with id := id, created := old.created, modified := e.now }

theorem onEntries_delete (id : Bytes) : OnEntries (deleteEntry id) fun es => (.ok (es.find? id).isSome, es.erase id) where
  unlocked hs := by
    rw [deleteEntry_unlocked hs]
    rfl
  otherwise hs := by simp [deleteEntry, ensureUnlocked_apply, hs, lockedError]
  keyed hk := hk.erase id

theorem onEntries_get (id : Bytes) : OnEntries (getEntry id) fun es => match es.find? id with
    | none => (.error (.runtimeError "Entry not found"), es)
    | some entry => (.ok entry, es) where
  unlocked {p} hs := by
    rw [getEntry_unlocked hs]
    cases hf : p.vault.entries.find? id <;> rfl
  otherwise hs := by simp [getEntry, ensureUnlocked_apply, hs, lockedError]
  keyed {es} hk := by cases hf : es.find? id <;> exact hk

theorem onEntries_list : OnEntries listEntries fun es => (.ok (es.toList.map Prod.snd), es) where
  unlocked hs := by
    rw [listEntries_unlocked hs]
    rfl
  otherwise hs := by simp [listEntries, ensureUnlocked_apply, hs, lockedError]
  keyed hk := hk

theorem onEntries_search (query : Bytes) : OnEntries (search query) fun es =>
    (.ok ((es.toList.map Prod.snd).filter fun entry => contains entry.name query || contains entry.username query), es) where
  unlocked hs := by
    rw [search_unlocked hs]
    rfl
  otherwise hs := by simp [search, ensureUnlocked_apply, hs, lockedError]
  keyed hk := hk

theorem onEntries_searchByTag (tag : Bytes) : OnEntries (searchByTag tag) fun es =>
    (.ok ((es.toList.map Prod.snd).filter fun entry => entry.tags.contains tag), es) where
  unlocked hs := by
    rw [searchByTag_unlocked hs]
    rfl
  otherwise hs := by simp [searchByTag, ensureUnlocked_apply, hs, lockedError]
  keyed hk := hk

/-! ## The refinement -/

/-- The vault object with its files does what the notebook does, wherever that has a meaning. -/
theorem notebook_refines (hS : S.Correct) (hR : S.Rejects) (hF : F.Lawful) (hW : F.Whole) :
    Backend.Refines (Represents S F) (vaultBackend S F) (notebookBackend (vaultMedium S F)) where
  state h := h.state_eq
  call {p t} h e op a t' hc := by
    -- an operation that always has a meaning gives the one answer that the call has
    have htotal : ∀ {r : Except Exn op.Result × Shelf}, some r = some (a, t') →
        (∃ p', returned (perform S F e op p) = some (r.1, p') ∧ Represents S F p' r.2) →
        ∃ p', returned (perform S F e op p) = some (a, p') ∧ Represents S F p' t' := by
      intro r hr hrep
      obtain ⟨rfl, rfl⟩ := Prod.mk.inj (Option.some.inj hr)
      exact hrep
    cases op with
    | create path passphrase => exact htotal hc (create_represents hW h path passphrase)
    | «open» path =>
      obtain ⟨p', hp', hrep⟩ := open_represents (e := e) hF h path
      refine htotal hc ⟨p', ?_, hrep⟩
      change returned («open» S F e path p) = _
      rw [hp']
      rfl
    | unlock passphrase => exact unlock_represents hS hR hF h hc
    | lock =>
      refine htotal hc ⟨_, ?_, lock_represents h⟩
      change returned (lock p) = _
      rw [lock_apply]
      rfl
    | load =>
      obtain ⟨⟨b, t₁⟩, hl, hr⟩ := Option.map_eq_some_iff.mp hc
      obtain ⟨rfl, rfl⟩ := Prod.mk.inj hr
      obtain ⟨p', hp', hrep⟩ := load_represents hS hF h hl
      refine ⟨p', ?_, hrep⟩
      change returned (load S F e p) = _
      rw [hp']
      rfl
    | save =>
      obtain ⟨p', hp', hrep⟩ := save_represents (e := e) hW h
      refine htotal hc ⟨p', ?_, hrep⟩
      change returned (save S F e p) = _
      rw [hp']
      rfl
    | rekey newDataKey => exact htotal hc (rekey_represents hW h newDataKey)
    | addEntry entry => exact htotal hc ((onEntries_add e entry).represents h)
    | updateEntry id entry => exact htotal hc ((onEntries_update e id entry).represents h)
    | deleteEntry id => exact htotal hc ((onEntries_delete id).represents h)
    | getEntry id => exact htotal hc ((onEntries_get id).represents h)
    | listEntries => exact htotal hc (onEntries_list.represents h)
    | search query => exact htotal hc ((onEntries_search query).represents h)
    | searchByTag tag => exact htotal hc ((onEntries_searchByTag tag).represents h)
  restart h := ⟨⟨rfl, rfl, rfl⟩, h.files⟩

end Passdoq
