import Passdoq.Lib.MsgpackFormat
import Passdoq.Vault.Codec
import Passdoq.Vault.LockState

/-!
# Saving and reloading

* `Wraps`, `Derives` : the header wraps the data key under the master key, the passphrase derives the master key;
* `reload_saved` : with both, a saved vault reloads, on a fresh object and on the same one after `lock`;
* `Session` : a run together with the passphrase of the keys in memory;
* `persistence` : a save reloads exactly when the passphrase still derives the master key from the salt in the header.
-/

namespace Passdoq
open Msgpack Crypto Vault

variable {S : Sodium} {F : Format} {e : Env} {p p' : Proc} {passphrase : Bytes} {mk dk : Key}

/-- The keys are in memory, and the wrapped key of the header opens under the one to the other. -/
structure Wraps (S : Sodium) (v : Vault) (mk dk : Key) : Prop where
  masterKey : v.masterKey = some mk
  dataKey : v.dataKey = some dk
  unwrap : ∀ e, unwrap S e v.header mk = .ok dk.1

/-- The passphrase and the salt give the master key, whatever random bytes are drawn. -/
def Derives (S : Sodium) (passphrase salt : Bytes) (mk : Key) : Prop :=
  ∀ fresh beyond, ∃ derived, deriveMasterKey S fresh true beyond passphrase salt = .ok derived ∧ derived.key = mk

/-- `save` returns true and its bytes are in the file. -/
def Saves (S : Sodium) (F : Format) (e : Env) (p p' : Proc) : Prop :=
  save S F e p = (.ok true, p') ∧ ∃ b, fileBytes S F e.nonce p.vault = .ok b ∧ p'.fs p'.vault.path = some b

/-- A fresh object opens the file and unlocks it. -/
def reopen (S : Sodium) (F : Format) (e₁ e₂ : Env) (passphrase : Bytes) (p : Proc) : Except Fault Bool × Proc :=
  (do if ← «open» S F e₁ p.vault.path then unlock S F e₂ passphrase else return false : Act Bool) ⟨.fresh, p.fs⟩

/-- The object is locked and unlocked again. -/
def relock (S : Sodium) (F : Format) (e : Env) (passphrase : Bytes) (p : Proc) : Except Fault Bool × Proc :=
  (do lock; unlock S F e passphrase : Act Bool) p

/-- `r` is what a reload with this passphrase gives, when its reads go well and Argon2id has its memory. -/
inductive Reload (S : Sodium) (F : Format) (passphrase : Bytes) (p : Proc) : Except Fault Bool × Proc → Prop
  | reopen (e₁ e₂ : Env) : e₁.read = .whole → e₂.read = .whole → e₂.alloc = true →
      Reload S F passphrase p (reopen S F e₁ e₂ passphrase p)
  | relock (e : Env) : e.read = .whole → e.alloc = true → Reload S F passphrase p (relock S F e passphrase p)

theorem Wraps.of_open {v : Vault} (hS : S.Correct) (hm : v.masterKey = some mk) (hd : v.dataKey = some dk)
    (hn : NONCE_SIZE ≤ v.header.dataKeyNonce.length)
    (ho : S.openEasy mk (Block.pad NONCE_SIZE v.header.dataKeyNonce) v.header.encryptedDataKey = some dk.1) :
    Wraps S v mk dk := by
  refine ⟨hm, hd, fun e => ?_⟩
  rw [Vault.unwrap, decrypt_key hS hn, ho]

/-- A save whose write goes through. -/
theorem saves_of_full {b : Bytes} (hs : p.vault.state = .unlocked) (hb : fileBytes S F e.nonce p.vault = .ok b)
    (hw : e.write = .full true) : Saves S F e p (save S F e p).2 := by
  rw [Saves, save_unlocked hs, hb, hw]
  exact ⟨rfl, b, rfl, Function.update_self _ _ _⟩

/-! ## A saved vault reloads -/

theorem save_unlocked_state (h : Saves S F e p p') : p.vault.state = .unlocked := by
  by_contra hs
  have := h.1
  rw [save_locked hs] at this
  cases this

theorem save_vault_eq (h : Saves S F e p p') : p'.vault = p.vault := by
  rw [← save_vault S F e p, h.1]

/-- Opening a saved file on a fresh object gives a locked vault with the header that was saved. -/
theorem open_saved (hF : F.Lawful) {nonce : Nonce} {v : Vault} {b path : Bytes} {fs : FS}
    (hb : fileBytes S F nonce v = .ok b) (hfs : fs path = some b) (hr : e.read = .whole) :
    «open» S F e path ⟨.fresh, fs⟩ = (.ok true, ⟨⟨path, .locked, v.header, none, none, ∅⟩, fs⟩) := by
  have hl : load S F e (Proc.withPath ⟨.fresh, fs⟩ path) = (.ok true, _) :=
    load_ok hfs hr (decodeFile_header hF hb e (by simp [Proc.withPath, Vault.fresh]))
  rcases open_cases S F e ⟨.fresh, fs⟩ path with ⟨hn, -⟩ | ⟨-, p', hp', ho⟩ | ⟨-, r, p', hp', hr', -⟩
  · exact absurd rfl hn
  · rw [hl] at hp'
    rw [ho, ← (Prod.mk.inj hp').2]
    rfl
  · rw [hl] at hp'
    exact absurd (Prod.mk.inj hp').1.symm hr'

/-- Unlocking a locked vault over a file saved with the same header. -/
theorem unlock_saved (hS : S.Correct) (hF : F.Lawful) {nonce : Nonce} {v : Vault} {b : Bytes} (hk : Keyed v.entries)
    (hb : fileBytes S F nonce v = .ok b) (hw : Wraps S v mk dk) (hd : Derives S passphrase v.header.salt mk)
    (hp : p.vault.state = .locked) (hh : p.vault.header = v.header) (hfs : p.fs p.vault.path = some b)
    (hr : e.read = .whole) (ha : e.alloc = true) :
    unlock S F e passphrase p = (.ok true, (p.withKeys mk dk).assign v.header (reloaded v.entries)) := by
  obtain ⟨d, hder, hkey⟩ := hd e.salt e.beyond
  have hder : deriveMasterKey S e.salt e.alloc e.beyond passphrase p.vault.header.salt = .ok d := by rw [ha, hh, hder]
  have hun : unwrap S e p.vault.header d.key = .ok dk.1 := by rw [hh, hkey, hw.unwrap]
  rw [unlock_loads hp hder hun (copyInto_of_length dk.2 _), hkey]
  exact load_ok hfs hr (decodeFile_fileBytes hS hF hk hb e rfl hw.dataKey.symm)

theorem relock_eq (hs : p.vault.state = .unlocked) : relock S F e passphrase p = unlock S F e passphrase (locked p) := by
  simp [relock, lock_apply, hs]

theorem reopen_eq {e₁ e₂ : Env} {p₁ : Proc} (ho : «open» S F e₁ p.vault.path ⟨.fresh, p.fs⟩ = (.ok true, p₁)) :
    reopen S F e₁ e₂ passphrase p = unlock S F e₂ passphrase p₁ := by
  simp [reopen, ho]

/-- A vault whose bytes are in its file reloads on every object to itself, with the entries that a save keeps. -/
theorem reload_written (hS : S.Correct) (hF : F.Lawful) (hs : p.vault.state = .unlocked) (hk : Keyed p.vault.entries)
    (hw : Wraps S p.vault mk dk) (hd : Derives S passphrase p.vault.header.salt mk) {nonce : Nonce} {b : Bytes}
    (hb : fileBytes S F nonce p.vault = .ok b) (hfs : p.fs p.vault.path = some b) {r : Except Fault Bool × Proc}
    (hr : Reload S F passphrase p r) :
    r = (.ok true, ⟨{ p.vault with entries := reloaded p.vault.entries }, p.fs⟩) := by
  have hvault : { p.vault with entries := reloaded p.vault.entries } = (⟨p.vault.path, .unlocked, p.vault.header,
      some mk, some dk, reloaded p.vault.entries⟩ : Vault) := by
    rw [← hs, ← hw.masterKey, ← hw.dataKey]
  rw [hvault]
  cases hr with
  | reopen e₁ e₂ h₁ h₂ ha =>
    rw [reopen_eq (open_saved hF hb hfs h₁), unlock_saved hS hF hk hb hw hd
      (p := ⟨⟨p.vault.path, .locked, p.vault.header, none, none, ∅⟩, p.fs⟩) rfl rfl hfs h₂ ha]
    rfl
  | relock e₁ h₁ ha =>
    rw [relock_eq hs, unlock_saved (p := locked p) hS hF hk hb hw hd rfl rfl hfs h₁ ha]
    rfl

theorem reload_saved (hS : S.Correct) (hF : F.Lawful) (hk : Keyed p.vault.entries) (hw : Wraps S p.vault mk dk)
    (hd : Derives S passphrase p.vault.header.salt mk) (hsave : Saves S F e p p') {r : Except Fault Bool × Proc}
    (hr : Reload S F passphrase p' r) :
    r = (.ok true, ⟨{ p.vault with entries := reloaded p.vault.entries }, p'.fs⟩) := by
  have hs := save_unlocked_state hsave
  have hv := save_vault_eq hsave
  obtain ⟨-, b, hb, hfs⟩ := hsave
  rw [← hv] at hs hk hw hd hb ⊢
  exact reload_written hS hF hs hk hw hd hb hfs hr

/-! ## Sessions -/

/-- A run's state with the passphrase that the keys in memory come from. -/
structure Session where
  proc : Proc
  passphrase : Bytes

namespace Session

def start (fs : FS) : Session := ⟨⟨.fresh, fs⟩, []⟩

/-- The session after an event that led to `p'`: a call that unlocks the vault sets the passphrase. -/
def next (s : Session) (ev : Event) (p' : Proc) : Session :=
  ⟨p', match ev with
    | .call _ (.create _ passphrase) | .call _ (.unlock passphrase) =>
      if s.proc.vault.state ≠ .unlocked ∧ p'.vault.state = .unlocked then passphrase else s.passphrase
    | _ => s.passphrase⟩

def step (S : Sodium) (F : Format) (s : Session) (ev : Event) : Option Session :=
  (s.proc.step S F ev).map (s.next ev)

theorem step_eq_some {s s' : Session} {ev : Event} :
    s.step S F ev = some s' ↔ ∃ p', s.proc.step S F ev = some p' ∧ s.next ev p' = s' := Option.map_eq_some_iff

theorem runs_proc {s s' : Session} {evs : List Event} (h : runs (step S F) s evs = some s') :
    runs (Proc.step S F) s.proc evs = some s'.proc := by
  refine runs_project (f := proc) (fun s ev s' hs => ?_) h
  obtain ⟨p', hp', rfl⟩ := step_eq_some.mp hs
  exact hp'

theorem reachable {fs : FS} {evs : List Event} {s : Session} (h : runs (step S F) (start fs) evs = some s) :
    Reachable S F s.proc := ⟨fs, evs, runs_proc h⟩

/-- The master key in memory was derived from the passphrase. -/
def FromPassphrase (S : Sodium) (s : Session) : Prop :=
  ∀ mk, s.proc.vault.masterKey = some mk → ∃ salt, mk = S.pwhash s.passphrase salt

theorem load_masterKey (p : Proc) : (load S F e p).2.vault.masterKey = p.vault.masterKey := by
  rcases load_cases S F e p with ⟨data, h, es, -, -, -, hl⟩ | ⟨-, r, h, es, hl, -⟩ <;> rw [hl, Proc.masterKey_assign]

/-- Only a call that unlocks the vault sets the passphrase. -/
theorem next_passphrase {s : Session} (ev : Event) (p' : Proc) (h : s.proc.vault.state ≠ .unlocked → p'.vault.state ≠ .unlocked) :
    (s.next ev p').passphrase = s.passphrase := by
  have hnot : ¬ (s.proc.vault.state ≠ .unlocked ∧ p'.vault.state = .unlocked) := fun hn => h hn.1 hn.2
  unfold next
  dsimp only
  split
  · exact if_neg hnot
  · exact if_neg hnot
  · rfl

theorem next_create {s : Session} {path : Bytes} (hs : s.proc.vault.state ≠ .unlocked) (hu : p'.vault.state = .unlocked) :
    (s.next (.call e (.create path passphrase)) p').passphrase = passphrase := if_pos ⟨hs, hu⟩

theorem next_unlock {s : Session} (hs : s.proc.vault.state ≠ .unlocked) (hu : p'.vault.state = .unlocked) :
    (s.next (.call e (.unlock passphrase)) p').passphrase = passphrase := if_pos ⟨hs, hu⟩

theorem call_fromPassphrase {s : Session} {op : Op} (h : s.FromPassphrase S) (heffect : Effect S F e s.proc op p') :
    (s.next (.call e op) p').FromPassphrase S := by
  intro mk hmk
  change p'.vault.masterKey = some mk at hmk
  cases heffect with
  | stay =>
    rw [next_passphrase _ _ id]
    exact h mk hmk
  | entries hop hs =>
    rw [next_passphrase _ _ fun hn => absurd hs hn]
    exact h mk hmk
  | @aim path _ hs =>
    rw [next_passphrase _ (s.proc.withPath path) fun hn => hn]
    exact h mk hmk
  | create hs hd =>
    rw [save_vault] at hmk
    obtain ⟨salt, hk⟩ := deriveMasterKey_salt hd
    rw [next_create (by rw [hs]; decide) (by rw [save_vault]; rfl)]
    exact ⟨salt, (Option.some.inj hmk).symm.trans hk⟩
  | «open» hs hstate =>
    change (load S F e (s.proc.withPath _)).2.vault.masterKey = some mk at hmk
    rw [load_masterKey] at hmk
    rw [next_passphrase _ _ fun _ => hstate]
    exact h mk hmk
  | unlock hs hd hb hk =>
    rw [load_masterKey] at hmk
    obtain ⟨salt, hkey⟩ := deriveMasterKey_salt hd
    rw [next_unlock (by rw [hs]; decide) (by rw [load_state]; rfl)]
    exact ⟨salt, (Option.some.inj hmk).symm.trans hkey⟩
  | lock => cases hmk
  | load =>
    rw [load_masterKey] at hmk
    rw [next_passphrase _ _ fun hn => by rwa [load_state]]
    exact h mk hmk
  | save hs =>
    rw [save_vault] at hmk
    rw [next_passphrase _ _ fun hn => absurd hs hn]
    exact h mk hmk
  | rekey hlen hs hm =>
    rw [save_vault] at hmk
    rw [next_passphrase _ _ fun hn => absurd hs hn]
    exact h mk (hm.trans hmk)

theorem step_fromPassphrase {s s' : Session} (h : s.FromPassphrase S) (ev : Event) (hs : s.step S F ev = some s') :
    s'.FromPassphrase S := by
  obtain ⟨p', hp', rfl⟩ := step_eq_some.mp hs
  cases ev with
  | external path contents =>
    cases hp'
    exact h
  | call e op =>
    obtain ⟨hr, rfl⟩ := Proc.step_call.mp hp'
    exact call_fromPassphrase h (exec_effect hr)

theorem run_fromPassphrase {fs : FS} {evs : List Event} {s : Session} (h : runs (step S F) (start fs) evs = some s) :
    s.FromPassphrase S := by
  refine runs_preserves (I := FromPassphrase S) (fun s ev s' hI hs => step_fromPassphrase hI ev hs) ?_ h
  intro mk hmk
  cases hmk

end Session

/-! ## The round trip -/

/-- What was saved reloads: every reload returns true with the entries as they were up to seconds, and after a save
of what it loaded the next reload changes nothing. -/
def RoundTrips (S : Sodium) (F : Format) (passphrase : Bytes) (p p' : Proc) : Prop :=
  ∀ r, Reload S F passphrase p' r → r.1 = .ok true ∧ r.2.vault.entries = p.vault.entries.mapVal Entry.truncate ∧
    ∀ e p'', Saves S F e r.2 p'' → ∀ r', Reload S F passphrase p'' r' →
      r'.1 = .ok true ∧ r'.2.vault.entries = r.2.vault.entries

theorem Keyed.mapVal {es : OrdMap Bytes Entry} (h : Keyed es) {f : Entry → Entry} (hf : ∀ entry, (f entry).id = entry.id) :
    Keyed (es.mapVal f) := by
  intro id entry hfind
  rw [OrdMap.find?_mapVal, Option.map_eq_some_iff] at hfind
  obtain ⟨entry', hfind, rfl⟩ := hfind
  rw [hf, h id entry' hfind]

theorem mapVal_truncate_truncate (es : OrdMap Bytes Entry) :
    (es.mapVal Entry.truncate).mapVal Entry.truncate = es.mapVal Entry.truncate := by
  rw [OrdMap.mapVal_mapVal]
  congr 1
  exact funext Entry.truncate_truncate

theorem roundTrips_of_derives (hS : S.Correct) (hF : F.Lawful) (hk : Keyed p.vault.entries)
    (hw : Wraps S p.vault mk dk) (hsave : Saves S F e p p')
    (hd : Derives S passphrase p.vault.header.salt mk) : RoundTrips S F passphrase p p' := by
  intro r hr
  obtain rfl := reload_saved hS hF hk hw hd hsave hr
  refine ⟨rfl, rfl, fun e₂ p'' hsave₂ r' hr' => ?_⟩
  -- the object that reloaded is in the situation of the one that saved
  have hk₂ : Keyed (reloaded p.vault.entries) := hk.mapVal fun _ => rfl
  obtain rfl := reload_saved (p := ⟨{ p.vault with entries := reloaded p.vault.entries }, p'.fs⟩) hS hF hk₂
    ⟨hw.masterKey, hw.dataKey, hw.unwrap⟩ hd hsave₂ hr'
  exact ⟨rfl, mapVal_truncate_truncate p.vault.entries⟩

/-- The wrapped key of a header that opens was made from what it opens to. -/
theorem Wraps.easy (hS : S.Correct) {v : Vault} (hw : Wraps S v mk dk) : NONCE_SIZE ≤ v.header.dataKeyNonce.length ∧
    S.easy mk (Block.pad NONCE_SIZE v.header.dataKeyNonce) dk.1 = v.header.encryptedDataKey := by
  obtain ⟨nonce, hn, ho⟩ := decrypt_ok (hw.unwrap { Env.calm 0 .epoch with beyond := none })
  have hlen : NONCE_SIZE ≤ v.header.dataKeyNonce.length := by
    by_contra hlt
    simp [readFixed, hlt] at hn
  rw [readFixed_of_le hlen, Except.ok.injEq] at hn
  rw [hn]
  exact ⟨hlen, hS.easy_open _ _ _ _ ho⟩

/-- A derived key other than the one that made the wrapped key does not open it. -/
theorem Wraps.unwrap_eq (hS : S.Correct) (hR : S.Rejects) {v : Vault} (hw : Wraps S v mk dk) {pw pw' : Bytes}
    {salt salt' : Salt} (hmk : mk = S.pwhash pw salt) {b : Bytes}
    (hun : Vault.unwrap S e v.header (S.pwhash pw' salt') = .ok b) : S.pwhash pw' salt' = mk := by
  obtain ⟨hlen, heasy⟩ := hw.easy hS
  by_contra hne
  obtain ⟨nonce, hn, ho⟩ := decrypt_ok hun
  rw [readFixed_of_le hlen, Except.ok.injEq] at hn
  rw [← hn, ← heasy, hmk, hR pw salt pw' salt' _ _ (hmk ▸ Ne.symm hne)] at ho
  cases ho

/-- A passphrase that unlocks a vault with the header of `v` derives its master key. -/
theorem derives_of_unlock (hS : S.Correct) (hR : S.Rejects) {v : Vault} (hw : Wraps S v mk dk) {pw : Bytes} {salt : Salt}
    (hmk : mk = S.pwhash pw salt) (hh : p.vault.header = v.header)
    (hu : (unlock S F e passphrase p).1 = .ok true) :
    ∃ d, deriveMasterKey S e.salt e.alloc e.beyond passphrase v.header.salt = .ok d ∧ d.key = mk := by
  rcases unlock_cases S F e p passphrase with
    ⟨-, hu'⟩ | ⟨-, f, -, hu'⟩ | ⟨-, d, hd, ⟨x, -, hu'⟩ | ⟨p', hu'⟩ | ⟨b, dk', hb, -, -⟩⟩
  · rw [hu'] at hu
    cases hu
  · rw [hu'] at hu
    cases hu
  · rw [hu'] at hu
    cases hu
  · rw [hu'] at hu
    cases hu
  · rw [hh] at hd hb
    obtain ⟨salt', hk⟩ := deriveMasterKey_salt hd
    rw [hk] at hb
    exact ⟨d, hd, hk.trans (hw.unwrap_eq hS hR hmk hb)⟩

/-- A vault whose header wraps its data key round trips through a save exactly when the passphrase derives its master
key from the salt that the header now has. The time conversions do not overflow. -/
theorem persistence (hS : S.Correct) (hR : S.Rejects) (hF : F.Lawful) {fs : FS} {evs : List Event} {s : Session}
    (hrun : runs (Session.step S F) (.start fs) evs = some s) (hw : Wraps S s.proc.vault mk dk)
    (hsave : Saves S F e s.proc p') :
    (∀ t : TimePoint, t.truncate.ns = t.ns.tdiv 1000000000 * 1000000000) ∧
      (RoundTrips S F s.passphrase s.proc p' ↔ Derives S s.passphrase s.proc.vault.header.salt mk) := by
  have hk := (Session.reachable hrun).keyed
  refine ⟨TimePoint.ns_truncate, fun hround => ?_, roundTrips_of_derives hS hF hk hw hsave⟩
  intro fresh beyond
  obtain ⟨salt, hmk⟩ := Session.run_fromPassphrase hrun mk hw.masterKey
  let e₂ : Env := { Env.calm 0 .epoch with salt := fresh, beyond := beyond }
  obtain ⟨hok, -⟩ := hround _ (.relock e₂ rfl rfl)
  have hv := save_vault_eq hsave
  rw [relock_eq (by rw [hv]; exact save_unlocked_state hsave)] at hok
  exact derives_of_unlock (e := e₂) hS hR hw hmk (by rw [← hv]; rfl) hok

/-- A vault just created, in a world where nothing fails. -/
def createdRun : List Event := [.call (Env.calm 7 .epoch) (.create (ascii "vault") (ascii "passphrase"))]

/-- Everything `persistence` asks of a state, as a check on a run of the model primitives. -/
def Savable (s : Session) : Prop :=
  s.proc.vault.state = .unlocked ∧ s.proc.vault.masterKey.isSome ∧ s.proc.vault.dataKey.isSome ∧
    NONCE_SIZE ≤ s.proc.vault.header.dataKeyNonce.length ∧
    (s.proc.vault.masterKey.bind fun mk => Sodium.toy.openEasy mk
      (Block.pad NONCE_SIZE s.proc.vault.header.dataKeyNonce) s.proc.vault.header.encryptedDataKey) =
      s.proc.vault.dataKey.map Subtype.val ∧
    (fileBytes .toy spec (Env.calm 7 .epoch).nonce s.proc.vault).toOption.isSome

instance (s : Session) : Decidable (Savable s) := by unfold Savable; infer_instance

theorem Savable.saves {s : Session} (h : Savable s) :
    ∃ mk dk, Wraps .toy s.proc.vault mk dk ∧
      Saves .toy spec (Env.calm 7 .epoch) s.proc (save .toy spec (Env.calm 7 .epoch) s.proc).2 := by
  obtain ⟨hs, hm, hd, hn, ho, hb⟩ := h
  obtain ⟨mk, hm⟩ := Option.isSome_iff_exists.mp hm
  obtain ⟨dk, hd⟩ := Option.isSome_iff_exists.mp hd
  rw [hm, hd] at ho
  refine ⟨mk, dk, Wraps.of_open toy_correct hm hd hn ho, ?_⟩
  rcases Except.ok_or_error (fileBytes .toy spec (Env.calm 7 .epoch).nonce s.proc.vault) with ⟨b, hfile⟩ | ⟨f, hfile⟩
  · exact saves_of_full hs hfile rfl
  · rw [hfile] at hb
    cases hb

theorem persistence_created : ∃ s mk dk p', runs (Session.step .toy spec) (.start fun _ => none) createdRun = some s ∧
    Wraps .toy s.proc.vault mk dk ∧ Saves .toy spec (Env.calm 7 .epoch) s.proc p' ∧
    (RoundTrips .toy spec s.passphrase s.proc p' ↔ Derives .toy s.passphrase s.proc.vault.header.salt mk) := by
  have hrun : (runs (Session.step .toy spec) (.start fun _ => none) createdRun).any fun s => Savable s := by
    decide +kernel
  obtain ⟨s, hs, hcheck⟩ := (Option.any_eq_true _ _).mp hrun
  obtain ⟨mk, dk, hw, hsave⟩ := (of_decide_eq_true hcheck).saves
  exact ⟨s, mk, dk, _, hs, hw, hsave, (persistence toy_correct toy_rejects spec_lawful hs hw hsave).2⟩

/-- Another writer changes a byte of the salt in the file, and the vault loads it. -/
def saltChanged : List Event := createdRun ++ [
  .external (ascii "vault") (((runs (Proc.step .toy spec) ⟨.fresh, fun _ => none⟩ createdRun).bind fun p =>
    p.fs (ascii "vault")).map fun b => b.set 17 9),
  .call (Env.calm 7 .epoch) .load]

/-- The header wraps the data key as ever and the save goes through, but the file does not unlock any more. -/
theorem persistence_saltChanged : ∃ s mk dk p',
    runs (Session.step .toy spec) (.start fun _ => none) saltChanged = some s ∧ Wraps .toy s.proc.vault mk dk ∧
    Saves .toy spec (Env.calm 7 .epoch) s.proc p' ∧
    ¬ RoundTrips .toy spec s.passphrase s.proc p' := by
  have hrun : (runs (Session.step .toy spec) (.start fun _ => none) saltChanged).any fun s => Savable s ∧
      (reopen .toy spec (Env.calm 7 .epoch) (Env.calm 7 .epoch) s.passphrase
        (save .toy spec (Env.calm 7 .epoch) s.proc).2).1 = .ok false := by
    decide +kernel
  obtain ⟨s, hs, hcheck⟩ := (Option.any_eq_true _ _).mp hrun
  obtain ⟨hsav, hfail⟩ := of_decide_eq_true hcheck
  obtain ⟨mk, dk, hw, hsave⟩ := hsav.saves
  refine ⟨s, mk, dk, _, hs, hw, hsave, fun hround => ?_⟩
  have hok := (hround _ (.reopen (Env.calm 7 .epoch) (Env.calm 7 .epoch) rfl rfl rfl)).1
  rw [hfail] at hok
  cases hok

end Passdoq
