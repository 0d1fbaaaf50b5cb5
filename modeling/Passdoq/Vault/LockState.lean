import Passdoq.Lib.MsgpackFormat
import Passdoq.Vault.Cases

/-!
# The lock state

* `LockInv` : an unlocked vault has both keys, any other vault has no key and no entry; every call keeps it
  (`Effect.lockInv`), hence every run (`Reachable.lockInv`);
* `lock_state` : the state tells the keys, and a vault that is not unlocked refuses to work;
* `unlock_failure` : a failed `unlock` leaves the vault locked exactly when it did not get past the wrapped key.
-/

namespace Passdoq
open Msgpack Crypto

variable {S : Sodium} {F : Format} {e : Env} {p p' : Proc}

/-- The keys are there exactly in an unlocked vault, and entries only there. -/
structure LockInv (v : Vault) : Prop where
  unlocked : v.state = .unlocked → v.masterKey.isSome ∧ v.dataKey.isSome
  other : v.state ≠ .unlocked → v.masterKey = none ∧ v.dataKey = none ∧ v.entries = ∅

namespace Vault

theorem lockInv_fresh : LockInv Vault.fresh := ⟨(nomatch ·), fun _ => ⟨rfl, rfl, rfl⟩⟩

theorem lockInv_assign (h : LockInv p.vault) (hd : VaultHeader) {es : OrdMap Bytes Entry}
    (hes : p.vault.state ≠ .unlocked → es = p.vault.entries) : LockInv (p.assign hd es).vault :=
  ⟨h.unlocked, fun hs => ⟨(h.other hs).1, (h.other hs).2.1, (hes hs).trans (h.other hs).2.2⟩⟩

theorem lockInv_withKeys (p : Proc) (mk dk : Key) : LockInv (p.withKeys mk dk).vault :=
  ⟨fun _ => ⟨rfl, rfl⟩, fun h => absurd rfl h⟩

theorem lockInv_withPath (h : LockInv p.vault) (path : Bytes) : LockInv (p.withPath path).vault :=
  ⟨h.unlocked, h.other⟩

theorem lockInv_locked (p : Proc) : LockInv (locked p).vault := ⟨(nomatch ·), fun _ => ⟨rfl, rfl, rfl⟩⟩

theorem load_lockInv (h : LockInv p.vault) : LockInv (load S F e p).2.vault := by
  rcases load_cases S F e p with ⟨data, hd, es, -, -, hdec, hl⟩ | ⟨-, r, hd, es, hl, -, -, hes, -⟩
  · rw [hl]
    exact lockInv_assign h hd (decodeFile_entries hdec).1
  · rw [hl]
    exact lockInv_assign h hd hes

end Vault

open Vault

/-- Every call keeps the invariant. -/
theorem Effect.lockInv {op : Op} (h : Effect S F e p op p') (hI : LockInv p.vault) : LockInv p'.vault := by
  cases h with
  | stay => exact hI
  | entries hop hs => exact lockInv_assign hI _ fun hn => absurd hs hn
  | aim hs => exact lockInv_withPath hI _
  | create hs hd =>
    rw [save_vault]
    exact lockInv_assign (lockInv_withPath (lockInv_withKeys p _ _) _) _ fun hn => absurd rfl hn
  | @«open» path s hs hstate =>
    have hl := load_lockInv (S := S) (F := F) (e := e) (lockInv_withPath hI path)
    refine ⟨fun hu => absurd hu hstate, fun _ => hl.other ?_⟩
    rw [load_state]
    change p.vault.state ≠ _
    rw [hs]
    decide
  | unlock => exact load_lockInv (lockInv_withKeys p _ _)
  | lock => exact lockInv_locked p
  | load => exact load_lockInv hI
  | save =>
    rw [save_vault]
    exact hI
  | rekey =>
    rw [save_vault]
    exact lockInv_assign (lockInv_withKeys p _ _) _ fun hn => absurd rfl hn

/-- Every step of a run keeps the invariant. -/
theorem Proc.step_lockInv (h : LockInv p.vault) (ev : Event) (hs : p.step S F ev = some p') : LockInv p'.vault := by
  cases ev with
  | call e op =>
    obtain ⟨hr, rfl⟩ := Proc.step_call.mp hs
    exact (exec_effect hr).lockInv h
  | external path contents =>
    cases hs
    exact h

theorem Reachable.lockInv (h : Reachable S F p) : LockInv p.vault := by
  obtain ⟨fs, evs, hr⟩ := h
  exact runs_preserves (I := fun p => LockInv p.vault) (fun p ev p' hI hs => Proc.step_lockInv hI ev hs) lockInv_fresh hr

/-- The object can do nothing: every operation on the entries throws and changes nothing, and `save` returns false. -/
def Idle (S : Sodium) (F : Format) (p : Proc) : Prop :=
  (∀ e op, op.needsUnlocked → exec S F e op p = (.error lockedError, p)) ∧ ∀ e, save S F e p = (.ok false, p)

theorem idle_of_not_unlocked (hs : p.vault.state ≠ .unlocked) : Idle S F p :=
  ⟨fun _ _ hop => exec_locked hop hs, fun _ => save_locked hs⟩

/-- The state is unlocked exactly when both keys are there; in any other state the object is empty and idle. -/
theorem lock_state (h : Reachable S F p) :
    (p.vault.state = .unlocked ↔ p.vault.masterKey.isSome ∧ p.vault.dataKey.isSome) ∧
      (p.vault.state ≠ .unlocked → p.vault.entries = ∅ ∧ Idle S F p) := by
  have hI := h.lockInv
  refine ⟨⟨hI.unlocked, fun ⟨hm, _⟩ => by_contra fun hs => ?_⟩, fun hs => ⟨(hI.other hs).2.2, idle_of_not_unlocked hs⟩⟩
  rw [(hI.other hs).1] at hm
  cases hm

/-- A vault created and locked again. -/
def createdLocked : List Event :=
  [.call (Env.calm 7 .epoch) (.create (ascii "vault") (ascii "passphrase")), .call (Env.calm 7 .epoch) .lock]

theorem createdLocked_runs : (runs (Proc.step .toy spec) ⟨.fresh, fun _ => none⟩ createdLocked).any fun p =>
    p.vault.state = .locked := by
  decide +kernel

theorem lock_state_created : ∃ p, Reachable .toy spec p ∧ p.vault.state = .locked ∧ p.vault.entries = ∅ ∧
    Idle .toy spec p := by
  obtain ⟨p, hp, hs⟩ := (Option.any_eq_true _ _).mp createdLocked_runs
  have hs : p.vault.state = .locked := by simpa using hs
  have hreach : Reachable .toy spec p := ⟨_, _, hp⟩
  obtain ⟨he, hi⟩ := (lock_state hreach).2 (by rw [hs]; decide)
  exact ⟨p, hreach, hs, he, hi⟩

/-! ## A failed unlock -/

/-- The passphrase opens the wrapped key of the header, but the file does not load under the data key it holds. -/
def UnlockStopsInLoad (S : Sodium) (F : Format) (e : Env) (passphrase : Bytes) (p : Proc) : Prop :=
  ∃ derived b dataKey, deriveMasterKey S e.salt e.alloc e.beyond passphrase p.vault.header.salt = .ok derived ∧
    unwrap S e p.vault.header derived.key = .ok b ∧ copyInto e.beyond DATA_KEY_SIZE b = .ok dataKey ∧
    LoadFails S F e (p.withKeys derived.key dataKey)

/-- When `unlock` returns false, the vault is locked as before, without keys and entries, and stays idle. -/
def UnlockFailsLocked (S : Sodium) (F : Format) (e : Env) (passphrase : Bytes) (p : Proc) : Prop :=
  (unlock S F e passphrase p).1 = .ok false →
    let p' := (unlock S F e passphrase p).2
    p'.vault.state = .locked ∧ p'.vault.masterKey = none ∧ p'.vault.dataKey = none ∧ p'.vault.entries = ∅ ∧
      p'.vault.header = p.vault.header ∧ Idle S F p'

/-- `unlock` stops in `load` with the vault unlocked. -/
theorem unlock_of_stopsInLoad {passphrase : Bytes} (hs : p.vault.state = .locked)
    (h : UnlockStopsInLoad S F e passphrase p) : (unlock S F e passphrase p).1 = .ok false ∧
      (unlock S F e passphrase p).2.vault.state = .unlocked := by
  obtain ⟨d, b, dk, hd, hb, hk, hf⟩ := h
  rw [unlock_loads hs hd hb hk]
  exact ⟨load_false_iff.mpr hf, load_state _⟩

/-- A false that does not come from `load` leaves everything as it was. -/
theorem unlock_of_not_stopsInLoad {passphrase : Bytes} (hs : p.vault.state = .locked)
    (h : ¬ UnlockStopsInLoad S F e passphrase p) (hf : (unlock S F e passphrase p).1 = .ok false) :
    (unlock S F e passphrase p).2 = p := by
  rcases unlock_cases S F e p passphrase with
    ⟨hn, -⟩ | ⟨-, f, -, hu⟩ | ⟨-, d, hd, ⟨x, -, hu⟩ | ⟨p', hu⟩ | ⟨b, dk, hb, hk, hu⟩⟩
  · exact absurd hs hn
  · rw [hu]
  · rw [hu]
  · rw [hu] at hf
    cases hf
  · rw [hu] at hf
    exact absurd ⟨d, b, dk, hd, hb, hk, load_false_iff.mp hf⟩ h

/-- A failed unlock leaves the vault locked exactly when it does not come to a failing `load`. -/
theorem unlock_failure (h : Reachable S F p) (hs : p.vault.state = .locked) (e : Env) (passphrase : Bytes) :
    UnlockFailsLocked S F e passphrase p ↔ ¬ UnlockStopsInLoad S F e passphrase p := by
  have hne : p.vault.state ≠ .unlocked := by rw [hs]; decide
  constructor
  · intro hlocked hstops
    obtain ⟨hf, hu⟩ := unlock_of_stopsInLoad hs hstops
    have := (hlocked hf).1
    rw [hu] at this
    cases this
  · intro hstops hf
    obtain ⟨hm, hd, he⟩ := h.lockInv.other hne
    rw [unlock_of_not_stopsInLoad hs hstops hf]
    exact ⟨hs, hm, hd, he, rfl, idle_of_not_unlocked hne⟩

theorem unlock_failure_created : ∃ p, Reachable .toy spec p ∧ p.vault.state = .locked ∧
    (UnlockFailsLocked .toy spec (Env.calm 7 .epoch) (ascii "passphrase") p ↔
      ¬ UnlockStopsInLoad .toy spec (Env.calm 7 .epoch) (ascii "passphrase") p) := by
  obtain ⟨p, hp, hs⟩ := (Option.any_eq_true _ _).mp createdLocked_runs
  have hs : p.vault.state = .locked := by simpa using hs
  exact ⟨p, ⟨_, _, hp⟩, hs, unlock_failure ⟨_, _, hp⟩ hs _ _⟩

/-- The file of a locked vault cut to nothing: `unlock` returns false and leaves the vault unlocked. -/
theorem unlock_failure_truncated : ∃ p, Reachable .toy spec p ∧ p.vault.state = .locked ∧
    ¬ UnlockFailsLocked .toy spec (Env.calm 7 .epoch) (ascii "passphrase") p := by
  have hrun : (runs (Proc.step .toy spec) ⟨.fresh, fun _ => none⟩
      (createdLocked ++ [.external (ascii "vault") (some [])])).any fun p => p.vault.state = .locked ∧
        (unlock .toy spec (Env.calm 7 .epoch) (ascii "passphrase") p).1 = .ok false ∧
        (unlock .toy spec (Env.calm 7 .epoch) (ascii "passphrase") p).2.vault.state = .unlocked := by
    decide +kernel
  obtain ⟨p, hp, hs⟩ := (Option.any_eq_true _ _).mp hrun
  obtain ⟨hs, hf, hu⟩ := by simpa using hs
  refine ⟨p, ⟨_, _, hp⟩, hs, fun h => ?_⟩
  rw [(h hf).1] at hu
  cases hu

end Passdoq
