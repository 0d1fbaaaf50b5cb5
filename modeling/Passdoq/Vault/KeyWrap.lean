import Passdoq.Vault.Persistence

/-!
# The wrapped data key

While a vault is unlocked its header should wrap the data key in memory. `load` assigns the header before it knows
whether the entries decrypt, so this holds as long as every load of an unlocked vault reads the header it already has.

* `KeepsHeader`, `WellSized`, `Allowed` : what a run has to meet;
* `KeysHold` : header, passphrase and keys in memory belong together; allowed steps keep it (`step_keysInv`);
* `key_wrap` : in every allowed run the header wraps the data key, and what was saved unlocks again.
-/

namespace Passdoq
open Msgpack Crypto Vault

variable {S : Sodium} {F : Format} {e : Env} {p p' : Proc} {passphrase : Bytes} {mk dk : Key}

/-- The header fields of a file, up to the first that does not convert, are those of `h`, the version apart. -/
def HeaderAgrees (map : OrdMap Bytes Obj) (h : VaultHeader) : Prop :=
  ∀ version, (field map (ascii "version")).asUInt32 = some version →
    ∀ salt, (field map (ascii "salt")).asVector = some salt → salt = h.salt ∧
      ∀ key, (field map (ascii "encrypted_data_key")).asVector = some key → key = h.encryptedDataKey ∧
        ∀ nonce, (field map (ascii "data_key_nonce")).asVector = some nonce → nonce = h.dataKeyNonce

/-- If the file can be read, its header is the one in memory. -/
def KeepsHeader (F : Format) (e : Env) (p : Proc) : Prop :=
  ∀ data map, p.fs p.vault.path = some data → e.read = .whole → fileMap F data = .ok map →
    HeaderAgrees map p.vault.header

/-- The fields have the sizes that `create` and `rekey` write. -/
def WellSized (h : VaultHeader) : Prop :=
  SALT_SIZE ≤ h.salt.length ∧ h.encryptedDataKey.length = DATA_KEY_SIZE + MAC_SIZE ∧
    NONCE_SIZE ≤ h.dataKeyNonce.length

/-- The steps that cannot part the header from the keys: a load of an unlocked vault, also the one that ends an
`unlock` past the wrapped key, reads the header in memory, and that header has fields of the right size. -/
def Allowed (S : Sodium) (F : Format) (s : Session) : Event → Prop
  | .call e .load => s.proc.vault.state = .unlocked → KeepsHeader F e s.proc
  | .call e (.unlock passphrase) => s.proc.vault.state = .locked → ∀ derived b,
      deriveMasterKey S e.salt e.alloc e.beyond passphrase s.proc.vault.header.salt = .ok derived →
      unwrap S e s.proc.vault.header derived.key = .ok b → WellSized s.proc.vault.header ∧ KeepsHeader F e s.proc
  | _ => True

/-- Passphrase, header and the keys in memory belong together. -/
def KeysHold (S : Sodium) (passphrase : Bytes) (v : Vault) : Prop :=
  ∃ mk dk, Wraps S v mk dk ∧ Derives S passphrase v.header.salt mk

theorem headerRead_agrees {map : OrdMap Bytes Obj} {h : VaultHeader} (ha : HeaderAgrees map h) :
    ∃ version, headerRead map h = { h with version := version } := by
  unfold headerRead
  cases h1 : (field map (ascii "version")).asUInt32 with
  | none => exact ⟨h.version, rfl⟩
  | some version =>
    refine ⟨version, ?_⟩
    cases h2 : (field map (ascii "salt")).asVector with
    | none => rfl
    | some salt =>
      obtain ⟨rfl, ha⟩ := ha version h1 salt h2
      cases h3 : (field map (ascii "encrypted_data_key")).asVector with
      | none => rfl
      | some key =>
        obtain ⟨rfl, ha⟩ := ha key h3
        cases h4 : (field map (ascii "data_key_nonce")).asVector with
        | none => rfl
        | some nonce =>
          obtain rfl := ha nonce h4
          rfl

theorem load_keepsHeader (hk : KeepsHeader F e p) :
    ∃ version, (load S F e p).2.vault.header = { p.vault.header with version := version } := by
  rcases load_header S F e p with hh | ⟨data, map, hfs, hr, hm, hh⟩
  · exact ⟨p.vault.header.version, hh⟩
  · rw [hh]
    exact headerRead_agrees (hk data map hfs hr hm)

theorem load_dataKey (p : Proc) : (load S F e p).2.vault.dataKey = p.vault.dataKey := by
  rcases load_cases S F e p with ⟨data, h, es, -, -, -, hl⟩ | ⟨-, r, h, es, hl, -⟩ <;> rw [hl, Proc.dataKey_assign]

theorem KeysHold.congr {v w : Vault} (h : KeysHold S passphrase v) (hm : w.masterKey = v.masterKey)
    (hd : w.dataKey = v.dataKey) {version : UInt32} (hh : w.header = { v.header with version := version }) :
    KeysHold S passphrase w := by
  obtain ⟨mk, dk, hw, hder⟩ := h
  refine ⟨mk, dk, ⟨hm.trans hw.masterKey, hd.trans hw.dataKey, fun e => ?_⟩, ?_⟩
  · have := hw.unwrap e
    rw [Vault.unwrap] at this ⊢
    rwa [hh]
  · rwa [hh]

theorem load_keysHold (h : KeysHold S passphrase p.vault) (hk : KeepsHeader F e p) :
    KeysHold S passphrase (load S F e p).2.vault := by
  obtain ⟨version, hh⟩ := load_keepsHeader (S := S) hk
  exact h.congr (Session.load_masterKey p) (load_dataKey p) hh

theorem alloc_of_derive {fresh : Salt} {alloc : Bool} {beyond : Option Bytes} {salt : Bytes} {d : DerivedKey}
    (hd : deriveMasterKey S fresh alloc beyond passphrase salt = .ok d) : alloc = true := by
  cases alloc with
  | true => rfl
  | false =>
    simp only [deriveMasterKey, Except.bind_eq_ok] at hd
    obtain ⟨_, -, hd⟩ := hd
    cases hd

theorem derives_of_derive {fresh : Salt} {alloc : Bool} {beyond : Option Bytes} {salt : Bytes} {d : DerivedKey}
    (hlen : SALT_SIZE ≤ salt.length) (hd : deriveMasterKey S fresh alloc beyond passphrase salt = .ok d) :
    Derives S passphrase salt d.key := by
  intro fresh' beyond'
  rw [alloc_of_derive hd, deriveMasterKey_of_le hlen] at hd
  exact ⟨_, deriveMasterKey_of_le hlen fresh' beyond' passphrase, by rw [← Except.ok.inj hd]⟩

theorem created_keysHold (hS : S.Correct) {path : Bytes} {d : DerivedKey}
    (hd : deriveMasterKey S e.salt e.alloc e.beyond passphrase [] = .ok d) :
    KeysHold S passphrase (created S e p path d).vault := by
  refine ⟨d.key, e.dataKey, Wraps.of_open hS rfl rfl (Nat.le_of_eq e.keyNonce.2.symm) ?_, ?_⟩
  · change S.openEasy d.key (Block.pad NONCE_SIZE e.keyNonce.1) (S.easy d.key e.keyNonce e.dataKey.1) = _
    rw [Block.pad_of_length e.keyNonce.2, hS.open_easy]
  · -- the fresh salt is the one that goes into the header
    have hsalt : deriveMasterKey S e.salt e.alloc e.beyond passphrase e.salt.1 = .ok d := by
      have hne : e.salt.1 ≠ [] := fun h => by simpa [h, SALT_SIZE] using e.salt.2
      rw [← hd]
      simp [deriveMasterKey, hne]
    have hds : d.salt = e.salt.1 := by
      simp only [deriveMasterKey, if_pos, Except.bind_eq_ok] at hd
      obtain ⟨arg, -, hd⟩ := hd
      split_ifs at hd
      rw [← Except.ok.inj hd]
    change Derives S passphrase d.salt d.key
    rw [hds]
    exact derives_of_derive (Nat.le_of_eq e.salt.2.symm) hsalt

theorem withKeys_keysHold (hS : S.Correct) {d : DerivedKey} {b : Bytes} (hw : WellSized p.vault.header)
    (hd : deriveMasterKey S e.salt e.alloc e.beyond passphrase p.vault.header.salt = .ok d)
    (hb : unwrap S e p.vault.header d.key = .ok b) (hk : copyInto e.beyond DATA_KEY_SIZE b = .ok dk) :
    KeysHold S passphrase (p.withKeys d.key dk).vault := by
  obtain ⟨nonce, hn, ho⟩ := decrypt_ok hb
  rw [readFixed_of_le hw.2.2, Except.ok.injEq] at hn
  have hlen : b.length = DATA_KEY_SIZE := by
    have h1 := hS.length_open ho
    have h2 : p.vault.header.encryptedDataKey.length = DATA_KEY_SIZE + MAC_SIZE := hw.2.1
    change p.vault.header.encryptedDataKey.length = _ at h1
    omega
  rw [copyInto_of_length hlen] at hk
  obtain rfl := Except.ok.inj hk
  refine ⟨d.key, ⟨b, hlen⟩, Wraps.of_open hS rfl rfl hw.2.2 ?_, derives_of_derive hw.1 hd⟩
  rw [← ho, ← hn]
  rfl

theorem rekeyed_keysHold (hS : S.Correct) (h : KeysHold S passphrase p.vault) (hm : p.vault.masterKey = some mk)
    (dk' : Key) : KeysHold S passphrase (rekeyed S e p mk dk').vault := by
  obtain ⟨mk', dk, hw, hd⟩ := h
  obtain rfl := Option.some.inj (hm.symm.trans hw.masterKey)
  refine ⟨mk, dk', Wraps.of_open hS rfl rfl (Nat.le_of_eq e.keyNonce.2.symm) ?_, hd⟩
  change S.openEasy mk (Block.pad NONCE_SIZE e.keyNonce.1) (S.easy mk e.keyNonce dk'.1) = _
  rw [Block.pad_of_length e.keyNonce.2, hS.open_easy]

/-! ## Along a run -/

/-- An unlocked vault has its keys. -/
def Session.KeysInv (S : Sodium) (s : Session) : Prop :=
  s.proc.vault.state = .unlocked → KeysHold S s.passphrase s.proc.vault

theorem call_keysInv (hS : S.Correct) {s : Session} {op : Op} (h : s.KeysInv S) (ha : Allowed S F s (.call e op))
    (heffect : Effect S F e s.proc op p') : (s.next (.call e op) p').KeysInv S := by
  intro hu
  change p'.vault.state = .unlocked at hu
  cases heffect with
  | stay =>
    rw [Session.next_passphrase _ _ id]
    exact h hu
  | entries hop hs =>
    rw [Session.next_passphrase _ _ fun hn => absurd hs hn]
    exact (h hs).congr rfl rfl rfl
  | aim hs => cases hs.symm.trans hu
  | create hs hd =>
    rw [Session.next_create (by rw [hs]; decide) hu]
    change KeysHold S _ (save S F e _).2.vault
    rw [save_vault]
    exact created_keysHold hS hd
  | «open» hs hstate => exact absurd hu hstate
  | unlock hs hd hb hk =>
    obtain ⟨hw, hkeep⟩ := ha hs _ _ hd hb
    rw [Session.next_unlock (by rw [hs]; decide) hu]
    exact load_keysHold (withKeys_keysHold hS hw hd hb hk) hkeep
  | lock => cases hu
  | load =>
    rw [load_state] at hu
    rw [Session.next_passphrase _ _ fun hn => absurd hu hn]
    exact load_keysHold (h hu) (ha hu)
  | save hs =>
    rw [Session.next_passphrase _ _ fun hn => absurd hs hn]
    change KeysHold S _ (save S F e s.proc).2.vault
    rw [save_vault]
    exact h hs
  | rekey hlen hs hm =>
    rw [Session.next_passphrase _ _ fun hn => absurd hs hn]
    change KeysHold S _ (save S F e _).2.vault
    rw [save_vault]
    exact rekeyed_keysHold hS (h hs) hm _

theorem step_keysInv (hS : S.Correct) {s s' : Session} (h : s.KeysInv S) (ev : Event) (ha : Allowed S F s ev)
    (hstep : s.step S F ev = some s') : s'.KeysInv S := by
  obtain ⟨p', hp', rfl⟩ := Session.step_eq_some.mp hstep
  cases ev with
  | external path contents =>
    cases hp'
    exact h
  | call e op =>
    obtain ⟨hr, rfl⟩ := Proc.step_call.mp hp'
    exact call_keysInv hS h ha (exec_effect hr)

/-- In every state of an allowed run an unlocked vault has the keys that its header wraps. -/
theorem run_keysInv (hS : S.Correct) {fs : FS} {evs : List Event} {s : Session}
    (hrun : runs (Session.step S F) (.start fs) evs = some s)
    (ha : Along (Session.step S F) (Allowed S F) (.start fs) evs) : s.KeysInv S :=
  runs_invariant (I := Session.KeysInv S) (fun _ ev _ hI hC hs => step_keysInv hS hI ev hC hs)
    (fun hu => by cases hu) ha hrun

/-- A file with the bytes of a save opens, and unlocks with the passphrase of the keys. -/
theorem reopen_of_keysHold (hS : S.Correct) (hF : F.Lawful) (h : KeysHold S passphrase p.vault)
    (hk : Keyed p.vault.entries) {nonce : Nonce} {b : Bytes} (hb : fileBytes S F nonce p.vault = .ok b)
    (hfs : p.fs p.vault.path = some b) {e₁ e₂ : Env} (h₁ : e₁.read = .whole) (h₂ : e₂.read = .whole)
    (ha : e₂.alloc = true) : (reopen S F e₁ e₂ passphrase p).1 = .ok true := by
  obtain ⟨mk, dk, hw, hd⟩ := h
  rw [reopen_eq (open_saved hF hb hfs h₁), unlock_saved hS hF hk hb hw hd
    (p := ⟨⟨p.vault.path, .locked, p.vault.header, none, none, ∅⟩, p.fs⟩) rfl rfl hfs h₂ ha]

/-- In every allowed run an unlocked vault's header wraps its data key under its master key; and when a `save` or a
`rekey` then returns true with its bytes on disk, a fresh object opens the file and unlocks it. -/
theorem key_wrap (hS : S.Correct) (hF : F.Lawful) {fs : FS} {evs : List Event} {s : Session}
    (hrun : runs (Session.step S F) (.start fs) evs = some s)
    (ha : Along (Session.step S F) (Allowed S F) (.start fs) evs) :
    (s.proc.vault.state = .unlocked → ∃ mk dk, Wraps S s.proc.vault mk dk) ∧
      ∀ e op p', (op = .save ∨ ∃ newDataKey, op = .rekey newDataKey) →
        exec S F e op s.proc = (.ok (.bool true), p') →
        ∀ b, fileBytes S F e.nonce p'.vault = .ok b → p'.fs p'.vault.path = some b →
        ∀ e₁ e₂, e₁.read = .whole → e₂.read = .whole → e₂.alloc = true →
          (reopen S F e₁ e₂ s.passphrase p').1 = .ok true := by
  have hinv := run_keysInv hS hrun ha
  refine ⟨fun hu => ?_, fun e op p' hop hx b hb hfs e₁ e₂ h₁ h₂ halloc => ?_⟩
  · obtain ⟨mk, dk, hw, -⟩ := hinv hu
    exact ⟨mk, dk, hw⟩
  · have hstep : s.step S F (.call e op) = some ⟨p', s.passphrase⟩ := by
      refine Session.step_eq_some.mpr ⟨p', Proc.step_call.mpr ⟨by rw [hx]; simp, by rw [hx]⟩, ?_⟩
      rcases hop with rfl | ⟨k, rfl⟩ <;> rfl
    have hallow : Allowed S F s (.call e op) := by rcases hop with rfl | ⟨k, rfl⟩ <;> trivial
    have hreach : Reachable S F p' := Session.reachable (runs_snoc.mpr ⟨s, hrun, hstep⟩)
    -- only an unlocked vault has a data key to write under
    have hu : p'.vault.state = .unlocked := by
      by_contra hn
      obtain ⟨_, dk, _, -, hdk, -⟩ := fileBytes_ok hb
      rw [(hreach.lockInv.other hn).2.1] at hdk
      cases hdk
    exact reopen_of_keysHold hS hF (step_keysInv hS hinv _ hallow hstep hu) hreach.keyed hb hfs h₁ h₂ halloc

/-- A vault created and saved. -/
theorem key_wrap_created : ∃ s, runs (Session.step .toy spec) (.start fun _ => none) createdRun = some s ∧
    s.proc.vault.state = .unlocked ∧ ∃ mk dk, Wraps .toy s.proc.vault mk dk := by
  have hcheck : (runs (Session.step .toy spec) (.start fun _ => none) createdRun).any fun s =>
      s.proc.vault.state = .unlocked := by
    decide +kernel
  obtain ⟨s, hs, hu⟩ := (Option.any_eq_true _ _).mp hcheck
  have hu := of_decide_eq_true hu
  exact ⟨s, hs, hu, (key_wrap toy_correct spec_lawful hs ⟨trivial, fun _ _ => trivial⟩).1 hu⟩

/-- A `rekey` whose save fails, a `load` of the file that is still the old one, and a save. -/
def rekeyedRun : List Event := createdRun ++ [
  .call { Env.calm 8 .epoch with write := .refused } (.rekey (List.replicate DATA_KEY_SIZE 9)),
  .call (Env.calm 8 .epoch) .load]

/-- The header of an unlocked vault wraps the old data key, and after a save the file does not unlock. -/
theorem key_wrap_rekeyed : ∃ s, runs (Session.step .toy spec) (.start fun _ => none) rekeyedRun = some s ∧
    s.proc.vault.state = .unlocked ∧ (¬ ∃ mk dk, Wraps .toy s.proc.vault mk dk) ∧
    ∃ p' b, exec .toy spec (Env.calm 8 .epoch) .save s.proc = (.ok (.bool true), p') ∧
      fileBytes .toy spec (Env.calm 8 .epoch).nonce p'.vault = .ok b ∧ p'.fs p'.vault.path = some b ∧
      (reopen .toy spec (Env.calm 8 .epoch) (Env.calm 8 .epoch) s.passphrase p').1 = .ok false := by
  have hcheck : (runs (Session.step .toy spec) (.start fun _ => none) rekeyedRun).any fun s =>
      s.proc.vault.state = .unlocked ∧
      (s.proc.vault.masterKey.bind fun mk => (unwrap .toy (Env.calm 8 .epoch) s.proc.vault.header mk).toOption) ≠
        s.proc.vault.dataKey.map Subtype.val ∧
      (fileBytes .toy spec (Env.calm 8 .epoch).nonce s.proc.vault).toOption.isSome ∧
      (reopen .toy spec (Env.calm 8 .epoch) (Env.calm 8 .epoch) s.passphrase
        (save .toy spec (Env.calm 8 .epoch) s.proc).2).1 = .ok false := by
    decide +kernel
  obtain ⟨s, hs, hcheck⟩ := (Option.any_eq_true _ _).mp hcheck
  obtain ⟨hu, hne, hb, hfail⟩ := of_decide_eq_true hcheck
  refine ⟨s, hs, hu, ?_, ?_⟩
  · rintro ⟨mk, dk, hw⟩
    refine hne ?_
    rw [hw.masterKey, hw.dataKey, Option.bind_some, hw.unwrap]
    rfl
  · rcases Except.ok_or_error (fileBytes .toy spec (Env.calm 8 .epoch).nonce s.proc.vault) with ⟨b, hfile⟩ | ⟨f, hfile⟩
    · obtain ⟨hok, b, hb, hfs⟩ := saves_of_full (F := spec) (e := Env.calm 8 .epoch) hu hfile rfl
      refine ⟨_, b, ?_, ?_, hfs, hfail⟩
      · rw [exec, Eff.map_apply, hok]
      · rwa [save_vault]
    · rw [hfile] at hb
      cases hb

end Passdoq
