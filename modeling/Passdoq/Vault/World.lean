import Passdoq.Vault.LockState

/-!
# Many vault objects over one file system

* `World` : the objects and the files; `Call` : a call on one of the objects;
* `Moves` : what a call does to the path and the state of its object and to the files (`Effect.moves`).
-/

namespace Passdoq
open Msgpack Crypto Vault

variable {S : Sodium} {F : Format} {e : Env} {p p' : Proc} {op : Op}

/-- Vault objects, all fresh at the start, and the files they share. -/
structure World where
  vaults : Nat → Vault
  fs : FS

/-- A call on the object `obj`. Every call opens its file at most once, so that what another one does to the file during
the call is done before or after it. -/
structure Call where
  obj : Nat
  env : Env
  op : Op

namespace World

def start (fs : FS) : World := ⟨fun _ => .fresh, fs⟩

def proc (w : World) (i : Nat) : Proc := ⟨w.vaults i, w.fs⟩

def put (w : World) (i : Nat) (p : Proc) : World := ⟨Function.update w.vaults i p.vault, p.fs⟩

/-- What a call returns, and its object and the files after it. -/
def call (S : Sodium) (F : Format) (w : World) (c : Call) : Except Fault Reply × Proc := exec S F c.env c.op (w.proc c.obj)

variable {w : World} {i j : Nat}

theorem put_self : (w.put i p).vaults i = p.vault := Function.update_self _ _ _

theorem proc_put : (w.put i p).proc i = p := by
  rw [proc, put_self]
  rfl

theorem put_of_ne (h : j ≠ i) : (w.put i p).vaults j = w.vaults j := Function.update_of_ne h _ _

end World

def Op.isUnlock : Op → Bool
  | .unlock _ => true
  | _ => false

theorem Op.isUnlock_iff : op.isUnlock = true ↔ ∃ passphrase, op = .unlock passphrase := by
  cases op <;> simp [Op.isUnlock]

theorem map_bool_fst {x : Act Bool} {b : Bool} : ((Reply.bool <$> x) p).1 = .ok (.bool b) ↔ (x p).1 = .ok b := by
  rw [Eff.map_apply]
  rcases x p with ⟨_ | _, _⟩ <;> simp

theorem map_bool {x : Act Bool} {b : Bool} : (Reply.bool <$> x) p = (.ok (.bool b), p') ↔ x p = (.ok b, p') := by
  rw [Prod.ext_iff, Prod.ext_iff, map_bool_fst, Eff.map_apply_snd]

/-! ## What a call moves -/

/-- The files are as they were, or the file of the object is there with other contents. -/
def Written (p p' : Proc) : Prop := p'.fs = p.fs ∨ ∃ b, p'.fs = Function.update p.fs p'.vault.path (some b)

/-- What a call does to the path, the state and the files. -/
inductive Moves (p : Proc) : Op → Proc → Prop
  | quiet {op : Op} {p' : Proc} (hpath : p'.vault.path = p.vault.path) (hstate : p'.vault.state = p.vault.state)
    (hfs : p'.fs = p.fs) : Moves p op p'
  | lock {p' : Proc} (hs : p.vault.state = .unlocked) (hpath : p'.vault.path = p.vault.path)
    (hstate : p'.vault.state = .locked) (hfs : p'.fs = p.fs) : Moves p .lock p'
  | write {op : Op} {p' : Proc} (hop : op = .save ∨ ∃ newDataKey, op = .rekey newDataKey)
    (hs : p.vault.state = .unlocked) (hpath : p'.vault.path = p.vault.path) (hstate : p'.vault.state = .unlocked)
    (hfs : Written p p') : Moves p op p'
  | aim {op : Op} {p' : Proc} (hop : op.isUnlock = false) (hs : p.vault.state = .uninitialized)
    (hstate : p'.vault.state ≠ .unlocked) (hfs : p'.fs = p.fs) : Moves p op p'
  | create {path passphrase : Bytes} {p' : Proc} (hs : p.vault.state = .uninitialized)
    (hstate : p'.vault.state = .unlocked) (hpath : p'.vault.path = path) (hfs : Written p p') :
    Moves p (.create path passphrase) p'
  | unlock {passphrase : Bytes} {p' : Proc} (hs : p.vault.state = .locked) (hpath : p'.vault.path = p.vault.path)
    (hstate : p'.vault.state = .unlocked) (hfs : p'.fs = p.fs) : Moves p (.unlock passphrase) p'

theorem save_written (S : Sodium) (F : Format) (e : Env) (p : Proc) : Written p (save S F e p).2 := by
  by_cases hs : p.vault.state = .unlocked
  · rw [save_unlocked hs]
    rcases Except.ok_or_error (fileBytes S F e.nonce p.vault) with ⟨b, hb⟩ | ⟨f, hb⟩
    · rw [hb]
      unfold Written writeFile
      cases e.write with
      | refused => exact .inl rfl
      | short k good => exact .inr ⟨_, rfl⟩
      | full good => exact .inr ⟨_, rfl⟩
    · rw [hb]
      cases f <;> exact .inl rfl
  · rw [save_locked hs]
    exact .inl rfl

theorem load_path (p : Proc) : (load S F e p).2.vault.path = p.vault.path := by
  rcases load_cases S F e p with ⟨data, h, es, -, -, -, hl⟩ | ⟨-, r, h, es, hl, -⟩ <;> rw [hl, Proc.path_assign]

theorem load_fs (p : Proc) : (load S F e p).2.fs = p.fs := by
  rcases load_cases S F e p with ⟨data, h, es, -, -, -, hl⟩ | ⟨-, r, h, es, hl, -⟩ <;> rw [hl, Proc.fs_assign]

theorem unlock_keeps (S : Sodium) (F : Format) (e : Env) (passphrase : Bytes) : (unlock S F e passphrase).Keeps Proc.fs := by
  unfold unlock
  refine .bind (fun _ => rfl) fun v => ?_
  split_ifs
  · exact Eff.keeps_pure _
  · refine .bind (Eff.keeps_lift _) fun d => .catching ?_ (Eff.keeps_pure _)
    refine .bind (Eff.keeps_lift _) fun b => .bind (fun _ => rfl) fun _ => .bind (Eff.keeps_lift _) fun dk =>
      .bind (fun _ => rfl) fun _ => .bind (fun _ => rfl) fun _ => load_fs

theorem open_keeps (S : Sodium) (F : Format) (e : Env) (path : Bytes) : («open» S F e path).Keeps Proc.fs := by
  unfold «open»
  refine .bind (fun _ => rfl) fun v => ?_
  split_ifs
  · exact Eff.keeps_pure _
  · refine .bind (fun _ => rfl) fun _ => .bind load_fs fun loaded => ?_
    split_ifs
    · exact .bind (fun _ => rfl) fun _ => Eff.keeps_pure _
    · exact Eff.keeps_pure _

/-- Every call moves only so much. -/
theorem Effect.moves (h : Effect S F e p op p') : Moves p op p' := by
  cases h with
  | stay => exact .quiet rfl rfl rfl
  | entries => exact .quiet rfl rfl rfl
  | @aim path passphrase hs =>
    refine .aim rfl hs ?_ rfl
    change p.vault.state ≠ _
    rw [hs]
    decide
  | @create path passphrase derived hs =>
    have hwritten := save_written S F e (created S e p path derived)
    have hvault := save_vault S F e (created S e p path derived)
    exact .create hs (by rw [hvault]; rfl) (by rw [hvault]; rfl) hwritten
  | @«open» path s hs hstate => exact .aim rfl hs hstate (load_fs (p.withPath path))
  | @unlock _ _ derived dataKey hs =>
    refine .unlock hs ?_ ?_ ?_
    · rw [load_path]
      rfl
    · rw [load_state]
      rfl
    · rw [load_fs]
      rfl
  | lock hs => exact .lock hs rfl rfl rfl
  | load => exact .quiet (load_path p) (load_state p) (load_fs p)
  | save hs =>
    have hvault := save_vault S F e p
    exact .write (.inl rfl) hs (by rw [hvault]) (by rw [hvault, hs]) (save_written S F e p)
  | @rekey newDataKey masterKey hlen hs =>
    have hwritten := save_written S F e (rekeyed S e p masterKey ⟨newDataKey, hlen⟩)
    have hvault := save_vault S F e (rekeyed S e p masterKey ⟨newDataKey, hlen⟩)
    exact .write (.inr ⟨_, rfl⟩) hs (by rw [hvault]; rfl) (by rw [hvault]; rfl) hwritten

/-- An object keeps its path once it is bound to a vault. -/
theorem Moves.path_eq (h : Moves p op p') (hs : p.vault.state ≠ .uninitialized) : p'.vault.path = p.vault.path := by
  cases h with
  | quiet hpath => exact hpath
  | lock _ hpath => exact hpath
  | write _ _ hpath => exact hpath
  | aim _ hn => exact absurd hn hs
  | create hn => exact absurd hn hs
  | unlock _ hpath => exact hpath

/-- `unlock` returns true only from a locked vault. -/
theorem unlock_true {passphrase : Bytes} (h : (unlock S F e passphrase p).1 = .ok true) : p.vault.state = .locked := by
  by_contra hs
  rcases unlock_cases S F e p passphrase with ⟨-, hu⟩ | ⟨hs', -⟩ | ⟨hs', -⟩
  · rw [hu] at h
    cases h
  · exact hs hs'
  · exact hs hs'

end Passdoq
