import Passdoq.Vault.KeyWrap
import Passdoq.Vault.World

/-!
# Who saved what is loaded

Any number of vault objects beside an adversary who writes the files. The encryptions that the objects make are logged;
cryptography is ideal when `decrypt` accepts, in the calls of the run, only what `encrypt` made under the same key.

* `Encryption` : an encryption of a data key or of the entries; `encryptions` : those of a call;
* `accepts` : what `decrypt` accepts in a call;
* `Ledger` : a world with the log; `Ledger.Ideal` : ideal cryptography for one call;
* `authenticity` : in every run with ideal cryptography, what `load` and `unlock` leave was saved by one `save`.
-/

namespace Passdoq
open Msgpack Crypto Vault

variable {S : Sodium} {F : Format} {e : Env} {p p' : Proc} {op : Op}

/-! ## Encryptions -/

/-- An encryption: of a data key by `create` and `rekey`, of the entries by `save`. -/
inductive Encryption
  | key (masterKey : Key) (nonce : Nonce) (dataKey : Key)
  | entries (dataKey : Key) (nonce : Nonce) (es : OrdMap Bytes Entry)

/-- A ciphertext, with the key and the nonce that belong to it. -/
structure Box where
  key : Key
  nonce : Nonce
  ciphertext : Bytes
  deriving DecidableEq

namespace Encryption

/-- What `encrypt` makes of it. Entries that do not serialize are not encrypted. -/
def box (S : Sodium) (F : Format) : Encryption → Option Box
  | .key masterKey nonce dataKey => some ⟨masterKey, nonce, S.easy masterKey nonce dataKey.1⟩
  | .entries dataKey nonce es => (serializeEntries F es).toOption.map fun b => ⟨dataKey, nonce, S.easy dataKey nonce b⟩

def masterKey : Encryption → Option Key
  | .key masterKey _ _ => some masterKey
  | .entries _ _ _ => none

def dataKey : Encryption → Option Key
  | .key _ _ dataKey => some dataKey
  | .entries _ _ _ => none

def saved : Encryption → Option (OrdMap Bytes Entry)
  | .key _ _ _ => none
  | .entries _ _ es => some es

theorem open_box (hS : S.Correct) {x : Encryption} {box : Box} (hb : x.box S F = some box) {m : Bytes}
    (ho : S.openEasy box.key box.nonce box.ciphertext = some m) : (∃ dk, x = .key box.key box.nonce dk ∧ m = dk.1) ∨
      ∃ es, x = .entries box.key box.nonce es ∧ serializeEntries F es = .ok m := by
  cases x with
  | key mk nonce dk =>
    obtain rfl := Option.some.inj hb
    rw [hS.open_easy, Option.some.injEq] at ho
    exact .inl ⟨dk, rfl, ho.symm⟩
  | entries dk nonce es =>
    obtain ⟨b, hser, rfl⟩ := Option.map_eq_some_iff.mp hb
    rw [hS.open_easy, Option.some.injEq] at ho
    subst ho
    refine .inr ⟨es, rfl, ?_⟩
    rcases Except.ok_or_error (serializeEntries F es) with ⟨b', hb'⟩ | ⟨f, hf⟩
    · rw [hb'] at hser ⊢
      exact congrArg Except.ok (Option.some.inj hser)
    · rw [hf] at hser
      cases hser

end Encryption

/-- The keys that data keys are wrapped under. -/
def masterKeys (log : List Encryption) : List Key := log.filterMap Encryption.masterKey

def dataKeys (log : List Encryption) : List Key := log.filterMap Encryption.dataKey

/-- The master key that a call derives from its passphrase. -/
def derives (S : Sodium) (e : Env) (p : Proc) : Op → Option Key
  | .create _ passphrase => if p.vault.state = .uninitialized then
      (deriveMasterKey S e.salt e.alloc e.beyond passphrase []).toOption.map DerivedKey.key else none
  | .unlock passphrase => if p.vault.state = .locked then
      (deriveMasterKey S e.salt e.alloc e.beyond passphrase p.vault.header.salt).toOption.map DerivedKey.key else none
  | _ => none

/-- The encryptions of a call: a data key is wrapped before the entries are saved under it. -/
def encryptions (S : Sodium) (e : Env) (p : Proc) (op : Op) : List Encryption :=
  match op with
  | .create _ _ => match derives S e p op with
    | some masterKey => [.key masterKey e.keyNonce e.dataKey, .entries e.dataKey e.nonce p.vault.entries]
    | none => []
  | .rekey newDataKey => match p.vault.state, p.vault.masterKey with
    | .unlocked, some masterKey => if h : newDataKey.length = DATA_KEY_SIZE then
        [.key masterKey e.keyNonce ⟨newDataKey, h⟩, .entries ⟨newDataKey, h⟩ e.nonce p.vault.entries] else []
    | _, _ => []
  | .save => match p.vault.state, p.vault.dataKey with
    | .unlocked, some dataKey => [.entries dataKey e.nonce p.vault.entries]
    | _, _ => []
  | _ => []

/-! ## Decryptions -/

/-- What `decrypt` accepts, with the nonce that it read. -/
def accepted (S : Sodium) (beyond : Option Bytes) (key : Key) (c : EncryptedData) : Option Box :=
  match readFixed beyond NONCE_SIZE c.nonce, decrypt S beyond c key.1 with
  | .ok nonce, .ok _ => some ⟨key, nonce, c.ciphertext⟩
  | _, _ => none

/-- The encrypted entries that `load` comes to in a file. -/
def fileEntries (F : Format) (data : Bytes) : Except Fault EncryptedData := do
  let map ← fileMap F data
  let _ ← decodeHeader map
  encryptedEntries map

def loadAccepts (S : Sodium) (F : Format) (e : Env) (p : Proc) : List Box :=
  match p.vault.state, p.vault.dataKey, readFile p.fs p.vault.path e.read with
  | .unlocked, some dataKey, .ok (some data) => match fileEntries F data with
    | .ok c => (accepted S e.beyond dataKey c).toList
    | .error _ => []
  | _, _, _ => []

def accepts (S : Sodium) (F : Format) (e : Env) (p : Proc) (op : Op) : List Box :=
  match op with
  | .load => loadAccepts S F e p
  | .unlock _ => match derives S e p op with
    | none => []
    | some masterKey => (accepted S e.beyond masterKey ⟨p.vault.header.encryptedDataKey, p.vault.header.dataKeyNonce, []⟩).toList ++
      match (unwrap S e p.vault.header masterKey).bind (copyInto e.beyond DATA_KEY_SIZE) with
      | .ok dataKey => loadAccepts S F e (p.withKeys masterKey dataKey)
      | .error _ => []
  | _ => []

theorem accepted_of_decrypt {key : Key} {c : EncryptedData} {beyond : Option Bytes} {m : Bytes}
    (h : decrypt S beyond c key.1 = .ok m) :
    ∃ nonce, accepted S beyond key c = some ⟨key, nonce, c.ciphertext⟩ ∧ S.openEasy key nonce c.ciphertext = some m := by
  obtain ⟨nonce, hn, ho⟩ := decrypt_ok h
  exact ⟨nonce, by rw [accepted, hn, h], ho⟩

/-! ## Keys -/

theorem derives_create {path passphrase : Bytes} {d : DerivedKey} (hs : p.vault.state = .uninitialized)
    (hd : deriveMasterKey S e.salt e.alloc e.beyond passphrase [] = .ok d) :
    derives S e p (.create path passphrase) = some d.key := by
  rw [derives, if_pos hs, hd]
  rfl

theorem derives_unlock {passphrase : Bytes} {d : DerivedKey} (hs : p.vault.state = .locked)
    (hd : deriveMasterKey S e.salt e.alloc e.beyond passphrase p.vault.header.salt = .ok d) :
    derives S e p (.unlock passphrase) = some d.key := by
  rw [derives, if_pos hs, hd]
  rfl

theorem encryptions_rekey {newDataKey : Bytes} {mk : Key} (hs : p.vault.state = .unlocked) (hm : p.vault.masterKey = some mk)
    (hlen : newDataKey.length = DATA_KEY_SIZE) : encryptions S e p (.rekey newDataKey) =
      [.key mk e.keyNonce ⟨newDataKey, hlen⟩, .entries ⟨newDataKey, hlen⟩ e.nonce p.vault.entries] := by
  simp only [encryptions, hs, hm, dif_pos hlen]

/-- Where the keys of an unlocked vault come from: they were there before the call, or the call wrapped the one under the
other, or it is an `unlock` that unwrapped the one with the other. -/
theorem Effect.keys (h : Effect S F e p op p') (hu : p'.vault.state = .unlocked) :
    (p.vault.state = .unlocked ∧ p'.vault.masterKey = p.vault.masterKey ∧ p'.vault.dataKey = p.vault.dataKey) ∨
    ∃ mk dk, p'.vault.masterKey = some mk ∧ p'.vault.dataKey = some dk ∧
      ((∃ nonce, .key mk nonce dk ∈ encryptions S e p op) ∨
      ∃ passphrase b, op = .unlock passphrase ∧ derives S e p op = some mk ∧ unwrap S e p.vault.header mk = .ok b ∧
        copyInto e.beyond DATA_KEY_SIZE b = .ok dk) := by
  cases h with
  | stay => exact .inl ⟨hu, rfl, rfl⟩
  | entries hop hs => exact .inl ⟨hs, rfl, rfl⟩
  | aim hs => cases hs.symm.trans hu
  | @create path passphrase d hs hd =>
    rw [save_vault]
    refine .inr ⟨d.key, e.dataKey, rfl, rfl, .inl ⟨e.keyNonce, ?_⟩⟩
    simp only [encryptions, derives_create hs hd, List.mem_cons, true_or]
  | «open» hs hstate => exact absurd hu hstate
  | @unlock passphrase b d dk hs hd hb hk =>
    rw [Session.load_masterKey, load_dataKey]
    exact .inr ⟨d.key, dk, rfl, rfl, .inr ⟨passphrase, b, rfl, derives_unlock hs hd, hb, hk⟩⟩
  | lock => cases hu
  | load =>
    rw [load_state] at hu
    exact .inl ⟨hu, Session.load_masterKey p, load_dataKey p⟩
  | save hs =>
    rw [save_vault]
    exact .inl ⟨hs, rfl, rfl⟩
  | @rekey newDataKey mk hlen hs hm =>
    rw [save_vault]
    refine .inr ⟨mk, ⟨newDataKey, hlen⟩, rfl, rfl, .inl ⟨e.keyNonce, ?_⟩⟩
    rw [encryptions_rekey hs hm hlen]
    exact List.mem_cons_self

/-- A call encrypts nothing, or a data key and the entries under it, or the entries under the data key in memory. -/
theorem encryptions_cases (S : Sodium) (e : Env) (p : Proc) (op : Op) : encryptions S e p op = [] ∨
    (∃ mk dk, (mk ∈ derives S e p op ∨ p.vault.state = .unlocked ∧ p.vault.masterKey = some mk) ∧
      encryptions S e p op = [.key mk e.keyNonce dk, .entries dk e.nonce p.vault.entries]) ∨
    ∃ dk, p.vault.state = .unlocked ∧ p.vault.dataKey = some dk ∧
      encryptions S e p op = [.entries dk e.nonce p.vault.entries] := by
  cases op with
  | create path passphrase =>
    unfold encryptions
    dsimp only
    split
    · next mk hd => exact .inr (.inl ⟨mk, e.dataKey, .inl hd, rfl⟩)
    · exact .inl rfl
  | rekey newDataKey =>
    unfold encryptions
    dsimp only
    split
    · next mk hs hm =>
      split_ifs with hlen
      · exact .inr (.inl ⟨mk, ⟨newDataKey, hlen⟩, .inr ⟨hs, hm⟩, rfl⟩)
      · exact .inl rfl
    · exact .inl rfl
  | save =>
    unfold encryptions
    dsimp only
    split
    · next dk hs hd => exact .inr (.inr ⟨dk, hs, hd, rfl⟩)
    · exact .inl rfl
  | _ => exact .inl rfl

theorem masterKeys_encryptions {key : Key} (h : key ∈ masterKeys (encryptions S e p op)) :
    key ∈ derives S e p op ∨ p.vault.state = .unlocked ∧ p.vault.masterKey = some key := by
  rcases encryptions_cases S e p op with hx | ⟨mk, dk, hmk, hx⟩ | ⟨dk, -, -, hx⟩ <;> rw [hx] at h
  · cases h
  · obtain rfl : key = mk := List.mem_singleton.mp h
    exact hmk
  · cases h

/-- A call saves the entries of its object, under a key that it has just wrapped or the data key in memory. -/
theorem entries_encryptions {dk : Key} {nonce : Nonce} {es : OrdMap Bytes Entry}
    (h : .entries dk nonce es ∈ encryptions S e p op) : es = p.vault.entries ∧
      (dk ∈ dataKeys (encryptions S e p op) ∨ p.vault.state = .unlocked ∧ p.vault.dataKey = some dk) := by
  rcases encryptions_cases S e p op with hx | ⟨mk, dk', -, hx⟩ | ⟨dk', hs, hd, hx⟩ <;> rw [hx] at h ⊢
  · cases h
  · rcases List.mem_pair.mp h with heq | heq <;> cases heq
    exact ⟨rfl, .inl List.mem_cons_self⟩
  · cases List.mem_singleton.mp h
    exact ⟨rfl, .inr ⟨hs, hd⟩⟩

/-! ## The ledger -/

/-- A world with the encryptions that its objects made. -/
structure Ledger where
  world : World
  log : List Encryption

/-- A call on one of the objects, or a write of anything by anyone else. -/
inductive Deed
  | call (c : Call)
  | external (path : Bytes) (contents : Option Bytes)

namespace Ledger

def start (fs : FS) : Ledger := ⟨.start fs, []⟩

def step (S : Sodium) (F : Format) (l : Ledger) : Deed → Option Ledger
  | .call c => match l.world.call S F c with
    | (.error .trap, _) => none
    | (_, p) => some ⟨l.world.put c.obj p, l.log ++ encryptions S c.env (l.world.proc c.obj) c.op⟩
  | .external path contents => some { l with world := { l.world with fs := Function.update l.world.fs path contents } }

/-- The ciphertexts that `encrypt` made. -/
def boxes (S : Sodium) (F : Format) (l : Ledger) : List Box := l.log.filterMap (Encryption.box S F)

def saved (l : Ledger) : List (OrdMap Bytes Entry) := l.log.filterMap Encryption.saved

/-- Ideal cryptography in a call: `decrypt` accepts only what `encrypt` made under its key, and no data key is a derived
master key. -/
structure Ideal (S : Sodium) (F : Format) (l : Ledger) (c : Call) : Prop where
  opens : ∀ box ∈ accepts S F c.env (l.world.proc c.obj) c.op, box ∈ l.boxes S F
  derived : ∀ key ∈ derives S c.env (l.world.proc c.obj) c.op, key ∉ dataKeys l.log
  drawn : ∀ key ∈ dataKeys (encryptions S c.env (l.world.proc c.obj) c.op),
    key ∉ masterKeys (l.log ++ encryptions S c.env (l.world.proc c.obj) c.op)

/-- The calls of the objects have ideal cryptography; an adversary does what it likes. -/
def Fair (S : Sodium) (F : Format) (l : Ledger) : Deed → Prop
  | .call c => l.Ideal S F c
  | .external _ _ => True

instance decidableIdeal (l : Ledger) (c : Call) : Decidable (l.Ideal S F c) :=
  decidable_of_iff ((∀ box ∈ accepts S F c.env (l.world.proc c.obj) c.op, box ∈ l.boxes S F) ∧
    (∀ key ∈ derives S c.env (l.world.proc c.obj) c.op, key ∉ dataKeys l.log) ∧
    ∀ key ∈ dataKeys (encryptions S c.env (l.world.proc c.obj) c.op),
      key ∉ masterKeys (l.log ++ encryptions S c.env (l.world.proc c.obj) c.op))
    ⟨fun ⟨h₁, h₂, h₃⟩ => ⟨h₁, h₂, h₃⟩, fun ⟨h₁, h₂, h₃⟩ => ⟨h₁, h₂, h₃⟩⟩

instance decidableFair (l : Ledger) : (d : Deed) → Decidable (l.Fair S F d)
  | .call c => decidableIdeal l c
  | .external _ _ => isTrue trivial

/-- An unlocked object has logged keys, no data key is a master key, and saves are under data keys. -/
structure Inv (l : Ledger) : Prop where
  keyed : ∀ i, Keyed (l.world.vaults i).entries
  keys : ∀ i, (l.world.vaults i).state = .unlocked → ∃ mk dk, (l.world.vaults i).masterKey = some mk ∧
    (l.world.vaults i).dataKey = some dk ∧ mk ∈ masterKeys l.log ∧ dk ∈ dataKeys l.log
  separate : ∀ key ∈ masterKeys l.log, key ∉ dataKeys l.log
  saves : ∀ dk nonce es, .entries dk nonce es ∈ l.log → dk ∈ dataKeys l.log ∧ Keyed es

theorem masterKeys_append (log log' : List Encryption) : masterKeys (log ++ log') = masterKeys log ++ masterKeys log' :=
  List.filterMap_append

theorem dataKeys_append (log log' : List Encryption) : dataKeys (log ++ log') = dataKeys log ++ dataKeys log' :=
  List.filterMap_append

theorem mem_boxes {l : Ledger} {box : Box} : box ∈ l.boxes S F ↔ ∃ x ∈ l.log, x.box S F = some box := List.mem_filterMap

theorem step_call {l l' : Ledger} {c : Call} : l.step S F (.call c) = some l' ↔ (l.world.call S F c).1 ≠ .error .trap ∧
    l' = ⟨l.world.put c.obj (l.world.call S F c).2, l.log ++ encryptions S c.env (l.world.proc c.obj) c.op⟩ := by
  rw [step]
  rcases l.world.call S F c with ⟨(_ | _) | _, _⟩ <;> simp [eq_comm]

theorem inv_start (fs : FS) : Inv (start fs) where
  keyed _ := keyed_empty
  keys _ h := by cases h
  separate _ h := by cases h
  saves _ _ _ h := by cases h

variable {l l' : Ledger} {c : Call}

theorem Inv.open_key (hS : S.Correct) (h : l.Inv) {key : Key} {c : EncryptedData} {beyond : Option Bytes} {m : Bytes}
    (hkey : key ∉ dataKeys l.log) (hm : decrypt S beyond c key.1 = .ok m)
    (hopens : ∀ box ∈ accepted S beyond key c, box ∈ l.boxes S F) :
    key ∈ masterKeys l.log ∧ ∃ dk ∈ dataKeys l.log, m = dk.1 := by
  obtain ⟨nonce, haccepted, ho⟩ := accepted_of_decrypt hm
  obtain ⟨x, hx, hbox⟩ := mem_boxes.mp (hopens _ haccepted)
  rcases x.open_box hS hbox ho with ⟨dk, rfl, rfl⟩ | ⟨es, rfl, -⟩
  · exact ⟨List.mem_filterMap.mpr ⟨_, hx, rfl⟩, dk, List.mem_filterMap.mpr ⟨_, hx, rfl⟩, rfl⟩
  · exact absurd (h.saves _ _ _ hx).1 hkey

theorem Inv.open_entries (hS : S.Correct) (h : l.Inv) {key : Key} {c : EncryptedData} {beyond : Option Bytes} {m : Bytes}
    (hkey : key ∈ dataKeys l.log) (hm : decrypt S beyond c key.1 = .ok m)
    (hopens : ∀ box ∈ accepted S beyond key c, box ∈ l.boxes S F) :
    ∃ es ∈ l.saved, Keyed es ∧ serializeEntries F es = .ok m := by
  obtain ⟨nonce, haccepted, ho⟩ := accepted_of_decrypt hm
  obtain ⟨x, hx, hbox⟩ := mem_boxes.mp (hopens _ haccepted)
  rcases x.open_box hS hbox ho with ⟨dk, rfl, -⟩ | ⟨es, rfl, hser⟩
  · exact absurd hkey (h.separate key (List.mem_filterMap.mpr ⟨_, hx, rfl⟩))
  · exact ⟨es, List.mem_filterMap.mpr ⟨_, hx, rfl⟩, (h.saves _ _ _ hx).2, hser⟩

/-- The keys that an `unlock` unwraps were wrapped before. -/
theorem unlock_keys (hS : S.Correct) (h : l.Inv) {passphrase b : Bytes} {mk dk : Key}
    (hideal : l.Ideal S F ⟨c.obj, c.env, .unlock passphrase⟩)
    (hd : derives S c.env (l.world.proc c.obj) (.unlock passphrase) = some mk)
    (hb : unwrap S c.env (l.world.vaults c.obj).header mk = .ok b)
    (hk : copyInto c.env.beyond DATA_KEY_SIZE b = .ok dk) : mk ∈ masterKeys l.log ∧ dk ∈ dataKeys l.log := by
  have hopens := hideal.opens
  simp only [accepts, hd] at hopens
  obtain ⟨hmk, dk', hdk', hbytes⟩ := h.open_key hS (hideal.derived mk hd) hb
    fun box hbox => hopens box (List.mem_append_left _ (Option.mem_toList.mpr hbox))
  have hcopy : copyInto c.env.beyond DATA_KEY_SIZE dk'.1 = .ok dk' := copyInto_of_length dk'.2 _
  rw [hbytes, hcopy] at hk
  obtain rfl := Except.ok.inj hk
  exact ⟨hmk, hdk'⟩

/-- The keys in memory are logged, when the call leaves its object unlocked. -/
theorem call_keys (hS : S.Correct) (h : l.Inv) (hideal : l.Ideal S F c)
    (heffect : Effect S F c.env (l.world.proc c.obj) c.op p) (hu : p.vault.state = .unlocked) :
    ∃ mk dk, p.vault.masterKey = some mk ∧ p.vault.dataKey = some dk ∧
      mk ∈ masterKeys (l.log ++ encryptions S c.env (l.world.proc c.obj) c.op) ∧
      dk ∈ dataKeys (l.log ++ encryptions S c.env (l.world.proc c.obj) c.op) := by
  rw [masterKeys_append, dataKeys_append]
  rcases heffect.keys hu with ⟨hs, hmk, hdk⟩ | ⟨mk, dk, hmk, hdk, ⟨nonce, hx⟩ | ⟨passphrase, b, hop, hd, hb, hk⟩⟩
  · obtain ⟨mk, dk, hmk', hdk', hmkmem, hdkmem⟩ := h.keys c.obj hs
    exact ⟨mk, dk, hmk.trans hmk', hdk.trans hdk', List.mem_append_left _ hmkmem, List.mem_append_left _ hdkmem⟩
  · exact ⟨mk, dk, hmk, hdk, List.mem_append_right _ (List.mem_filterMap.mpr ⟨_, hx, rfl⟩),
      List.mem_append_right _ (List.mem_filterMap.mpr ⟨_, hx, rfl⟩)⟩
  · obtain ⟨i, e, op⟩ := c
    subst hop
    obtain ⟨hmkmem, hdkmem⟩ := unlock_keys hS h hideal hd hb hk
    exact ⟨mk, dk, hmk, hdk, List.mem_append_left _ hmkmem, List.mem_append_left _ hdkmem⟩

theorem call_separate (h : l.Inv) (hideal : l.Ideal S F c) {key : Key}
    (hmk : key ∈ masterKeys (l.log ++ encryptions S c.env (l.world.proc c.obj) c.op)) :
    key ∉ dataKeys (l.log ++ encryptions S c.env (l.world.proc c.obj) c.op) := by
  intro hdk
  rw [dataKeys_append] at hdk
  rcases List.mem_append.mp hdk with hdk | hdk
  · rw [masterKeys_append] at hmk
    rcases List.mem_append.mp hmk with hmk | hmk
    · exact h.separate key hmk hdk
    · rcases masterKeys_encryptions hmk with hd | ⟨hs, hm⟩
      · exact hideal.derived key hd hdk
      · obtain ⟨mk, dk, hmk', -, hmem, -⟩ := h.keys c.obj hs
        rw [Option.some.inj (hm.symm.trans hmk')] at hdk
        exact h.separate mk hmem hdk
  · exact hideal.drawn key hdk hmk

theorem call_saves (h : l.Inv) {dk : Key} {nonce : Nonce} {es : OrdMap Bytes Entry}
    (hx : .entries dk nonce es ∈ l.log ++ encryptions S c.env (l.world.proc c.obj) c.op) :
    dk ∈ dataKeys (l.log ++ encryptions S c.env (l.world.proc c.obj) c.op) ∧ Keyed es := by
  rw [dataKeys_append]
  rcases List.mem_append.mp hx with hx | hx
  · obtain ⟨hdk, hes⟩ := h.saves dk nonce es hx
    exact ⟨List.mem_append_left _ hdk, hes⟩
  · obtain ⟨rfl, hdk | ⟨hs, hd⟩⟩ := entries_encryptions hx
    · exact ⟨List.mem_append_right _ hdk, h.keyed c.obj⟩
    · obtain ⟨mk, dk', -, hdk', -, hmem⟩ := h.keys c.obj hs
      rw [← Option.some.inj (hd.symm.trans hdk')] at hmem
      exact ⟨List.mem_append_left _ hmem, h.keyed c.obj⟩

theorem call_inv (hS : S.Correct) (h : l.Inv) (hideal : l.Ideal S F c) (hstep : l.step S F (.call c) = some l') :
    l'.Inv := by
  obtain ⟨hr, rfl⟩ := step_call.mp hstep
  have heffect : Effect S F c.env (l.world.proc c.obj) c.op (l.world.call S F c).2 := exec_effect hr
  constructor
  · intro i
    by_cases hi : i = c.obj
    · subst hi
      rw [World.put_self]
      exact heffect.keyed (h.keyed c.obj)
    · rw [World.put_of_ne hi]
      exact h.keyed i
  · intro i hu
    by_cases hi : i = c.obj
    · subst hi
      rw [World.put_self] at hu ⊢
      exact call_keys hS h hideal heffect hu
    · rw [World.put_of_ne hi] at hu ⊢
      obtain ⟨mk, dk, hmk, hdk, hmkmem, hdkmem⟩ := h.keys i hu
      rw [masterKeys_append, dataKeys_append]
      exact ⟨mk, dk, hmk, hdk, List.mem_append_left _ hmkmem, List.mem_append_left _ hdkmem⟩
  · exact fun key hmk => call_separate h hideal hmk
  · exact fun dk nonce es hx => call_saves h hx

theorem step_inv (hS : S.Correct) (h : l.Inv) {d : Deed} (hfair : l.Fair S F d) (hstep : l.step S F d = some l') :
    l'.Inv := by
  cases d with
  | call c => exact call_inv hS h hfair hstep
  | external path contents =>
    obtain rfl := Option.some.inj hstep
    exact ⟨h.keyed, h.keys, h.separate, h.saves⟩

end Ledger

/-! ## What is loaded -/

theorem encryptedEntries_short {map : OrdMap Bytes Obj} (h : ∀ key, (field map key).Short) {c : EncryptedData}
    (hc : encryptedEntries map = .ok c) : c.ciphertext.length < 2 ^ 32 := by
  obtain ⟨entries, hentries, hc⟩ := Except.bind_eq_ok.mp hc
  obtain ⟨ciphertext, hciphertext, hc⟩ := Except.bind_eq_ok.mp hc
  obtain ⟨nonce, -, hc⟩ := Except.bind_eq_ok.mp hc
  cases hc
  exact ((h _).field (as_ok.mp hentries) _).asVector (as_ok.mp hciphertext)

/-- A `load` of an unlocked vault that returns true decrypts the entries of the file and leaves them. -/
theorem load_decrypts (hF : F.Short) {dk : Key} (hs : p.vault.state = .unlocked) (hd : p.vault.dataKey = some dk)
    (h : load S F e p = (.ok true, p')) : ∃ c m, decrypt S e.beyond c dk.1 = .ok m ∧ c.ciphertext.length < 2 ^ 32 ∧
      (∀ box ∈ accepted S e.beyond dk c, box ∈ loadAccepts S F e p) ∧ decodeEntries F e.stale m = .ok p'.vault.entries := by
  rcases load_cases S F e p with ⟨data, hdr, es, hfs, hread, hdec, hl⟩ | ⟨-, r, hdr, es, hl, hr, -⟩
  · rw [hl] at h
    obtain ⟨-, rfl⟩ := Prod.mk.inj h
    obtain ⟨map, hmap, hhdr, hes⟩ := decodeFile_map hdec
    rw [loadedEntries, hs, hd] at hes
    obtain ⟨c, hc, hes⟩ := Except.bind_eq_ok.mp hes
    obtain ⟨m, hm, hes⟩ := Except.bind_eq_ok.mp hes
    obtain ⟨obj, hobj, hasMap⟩ := Except.bind_eq_ok.mp hmap
    have hshort : obj.Short := by
      unfold unpack at hobj
      split at hobj
      · next o ho =>
        obtain rfl := Except.ok.inj hobj
        exact hF _ _ ho
      · cases hobj
    have hfile : fileEntries F data = .ok c := by rw [fileEntries, hmap, Except.ok_bind, hhdr, Except.ok_bind, hc]
    refine ⟨c, m, hm, encryptedEntries_short (fun key => hshort.field (as_ok.mp hasMap) key) hc, fun box hbox => ?_, hes⟩
    rw [loadAccepts, hs, hd, readFile_ok_some.mpr ⟨hfs, hread⟩]
    dsimp only
    rw [hfile]
    exact Option.mem_toList.mpr hbox
  · rw [hl] at h
    rcases hr with rfl | rfl <;> cases h

/-- An object that loads under a data key of the log gets the entries of a `save`. -/
theorem Ledger.Inv.load_saved (hS : S.Correct) (hF : F.Lawful) (hshort : F.Short) {l : Ledger} (h : l.Inv) {dk : Key}
    (hs : p.vault.state = .unlocked) (hd : p.vault.dataKey = some dk) (hkey : dk ∈ dataKeys l.log)
    (hopens : ∀ box ∈ loadAccepts S F e p, box ∈ l.boxes S F) (hload : load S F e p = (.ok true, p')) :
    ∃ es ∈ l.saved, p'.vault.entries = reloaded es := by
  obtain ⟨c, m, hm, hlen, haccepted, hdec⟩ := load_decrypts hshort hs hd hload
  obtain ⟨es, hes, hk, hser⟩ := h.open_entries hS hkey hm fun box hbox => hopens box (haccepted box hbox)
  have hsize : es.size < 2 ^ 32 := by
    obtain ⟨nonce, -, ho⟩ := decrypt_ok hm
    have hcipher := hS.length_open ho
    have hentries := serializeEntries_length hser
    omega
  have hsaved := decode_serializeEntries hF hk hser e.stale
  rw [hdec, Nat.mod_eq_of_lt hsize, OrdMap.take_of_size_le (Nat.le_refl _)] at hsaved
  exact ⟨es, hes, Except.ok.inj hsaved⟩

/-- With ideal cryptography, in every run of any number of objects, between whose calls an adversary writes anything to
any file: when `load` or `unlock` returns true and leaves its object unlocked, the entries are those of one earlier `save`
by one of the objects, up to the truncation of times. -/
theorem authenticity (hS : S.Correct) (hF : F.Lawful) (hshort : F.Short) {fs : FS} {ds : List Deed} {l : Ledger}
    (hrun : runs (Ledger.step S F) (.start fs) ds = some l)
    (hfair : Along (Ledger.step S F) (Ledger.Fair S F) (.start fs) ds) {c : Call} (hideal : l.Ideal S F c)
    (hop : c.op = .load ∨ ∃ passphrase, c.op = .unlock passphrase) (hcall : l.world.call S F c = (.ok (.bool true), p))
    (hs : p.vault.state = .unlocked) : ∃ es ∈ l.saved, p.vault.entries = reloaded es := by
  have hinv : l.Inv := runs_invariant (I := Ledger.Inv) (fun _ _ _ hI hC hs => Ledger.step_inv hS hI hC hs)
    (Ledger.inv_start fs) hfair hrun
  obtain ⟨i, e, op⟩ := c
  have hopens := hideal.opens
  rcases hop with rfl | ⟨passphrase, rfl⟩
  · have hload : load S F e (l.world.proc i) = (.ok true, p) := map_bool.mp hcall
    have hstate := load_state (S := S) (F := F) (e := e) (l.world.proc i)
    rw [hload] at hstate
    obtain ⟨mk, dk, -, hd, -, hkey⟩ := hinv.keys i (hstate.symm.trans hs)
    exact hinv.load_saved hS hF hshort (hstate.symm.trans hs) hd hkey hopens hload
  · have hunlock : unlock S F e passphrase (l.world.proc i) = (.ok true, p) := map_bool.mp hcall
    rcases unlock_cases S F e (l.world.proc i) passphrase with
      ⟨-, hx⟩ | ⟨-, f, -, hx⟩ | ⟨hlocked, d, hd, ⟨x, -, hx⟩ | ⟨p', hx⟩ | ⟨b, dk, hb, hk, hx⟩⟩ <;> rw [hx] at hunlock
    · cases hunlock
    · cases hunlock
    · cases hunlock
    · cases hunlock
    · have hderives := derives_unlock hlocked hd
      obtain ⟨-, hkey⟩ := Ledger.unlock_keys (c := ⟨i, e, .unlock passphrase⟩) hS hinv hideal hderives hb hk
      refine hinv.load_saved hS hF hshort rfl rfl hkey (fun box hbox => hopens box ?_) hunlock
      have hkeys : (unwrap S e (l.world.proc i).vault.header d.key).bind (copyInto e.beyond DATA_KEY_SIZE) = .ok dk := by
        rw [hb]
        exact hk
      simp only [accepts, hderives, hkeys]
      exact List.mem_append_right _ hbox

/-- An entry is saved by the object that created the vault. -/
def savedEntry : List Deed := [.call ⟨0, Env.calm 7 .epoch, .create (ascii "vault") (ascii "passphrase")⟩,
  .call ⟨0, Env.calm 8 .epoch, .addEntry .blank⟩, .call ⟨0, Env.calm 8 .epoch, .save⟩]

/-- The entry is deleted and the vault saved again. The adversary puts the first file back, for another object to open. -/
def replayed : List Deed := savedEntry ++ [.call ⟨0, Env.calm 9 .epoch, .deleteEntry (generateId (Block.const 16 8))⟩,
  .call ⟨0, Env.calm 9 .epoch, .save⟩,
  .external (ascii "vault") ((runs (Ledger.step .toy spec) (.start fun _ => none) savedEntry).bind fun l =>
    l.world.fs (ascii "vault")),
  .call ⟨1, Env.calm 10 .epoch, .open (ascii "vault")⟩]

theorem authenticity_replayed : ∃ (l : Ledger) (p : Proc) (es : OrdMap Bytes Entry),
    l.world.call .toy spec ⟨1, Env.calm 11 .epoch, .unlock (ascii "passphrase")⟩ = (.ok (.bool true), p) ∧
    p.vault.entries.size = 1 ∧ es ∈ l.saved ∧ p.vault.entries = reloaded es := by
  have hcheck : (runs (Ledger.step .toy spec) (.start fun _ => none) replayed).any fun l =>
      Along (Ledger.step .toy spec) (Ledger.Fair .toy spec) (.start fun _ => none) replayed ∧
      l.Ideal .toy spec ⟨1, Env.calm 11 .epoch, .unlock (ascii "passphrase")⟩ ∧
      (l.world.call .toy spec ⟨1, Env.calm 11 .epoch, .unlock (ascii "passphrase")⟩).1 = .ok (.bool true) ∧
      (l.world.call .toy spec ⟨1, Env.calm 11 .epoch, .unlock (ascii "passphrase")⟩).2.vault.state = .unlocked ∧
      (l.world.call .toy spec ⟨1, Env.calm 11 .epoch, .unlock (ascii "passphrase")⟩).2.vault.entries.size = 1 := by
    decide +kernel
  obtain ⟨l, hrun, hcheck⟩ := (Option.any_eq_true _ _).mp hcheck
  obtain ⟨hfair, hideal, htrue, hs, hsize⟩ := of_decide_eq_true hcheck
  obtain ⟨es, hes, hsaved⟩ := authenticity toy_correct spec_lawful spec_short hrun hfair hideal (.inr ⟨_, rfl⟩)
    (Prod.ext htrue rfl) hs
  exact ⟨l, _, es, Prod.ext htrue rfl, hsize, hes, hsaved⟩

end Passdoq
