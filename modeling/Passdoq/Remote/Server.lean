import Passdoq.Vault.Persistence

/-!
# The RPC server and its clients

The handlers of `remote.cpp` on the shared vault and the client methods that call them. Arguments and results travel
unchanged, so a client call is the handler with the client's own treatment of the result and of exceptions.

* `RpcServer`, `RpcClient` : the two halves of each method; `bound` is whether a vault was bound to the server;
* `Request`, `Answer`, `serve`, `Proc.serve` : requests of any number of clients, handled one at a time;
* `rpc_transparent` : which client calls give what the call on the vault gives.
-/

namespace Passdoq
open Msgpack Crypto Vault

variable (S : Sodium) (F : Format) (bound : Bool)

namespace RpcServer

def unlock (e : Env) (passphrase : Bytes) : Act Bool := do
  if ¬ bound then return false
  Vault.unlock S F e passphrase

def lock : Act Unit := do
  if bound then Vault.lock

/-- `!vault_ || !vault_->is_unlocked()`. -/
def closed (v : Vault) : Bool := !bound || v.state ≠ .unlocked

def addEntry (e : Env) (name username secret : Bytes) : Act Bytes := do
  let v ← getVault
  if closed bound v then return []
  let id ← Vault.addEntry e { Entry.blank with name := name, username := username, secret := secret }
  -- the result of the save is dropped
  let _ ← save S F e
  return id

def getEntry (id : Bytes) : Act (Bytes × Bytes × Bytes) := do
  let v ← getVault
  if closed bound v then return ([], [], [])
  Eff.catching Fault.isException
    (do
      let entry ← Vault.getEntry id
      return (entry.name, entry.username, entry.secret))
    (return ([], [], []))

def listEntries : Act (List Bytes) := do
  let v ← getVault
  if closed bound v then return []
  let entries ← Vault.listEntries
  return entries.map Entry.id

def deleteEntry (e : Env) (id : Bytes) : Act Bool := do
  let v ← getVault
  if closed bound v then return false
  let result ← Vault.deleteEntry id
  if result then
    let _ ← save S F e
  return result

end RpcServer

namespace RpcClient

/-- `catch (const std::exception& e)` around a call, with what the client returns then. -/
def orElse {α : Type} (x : Act α) (a : α) : Act α := Eff.catching Fault.isException x (pure a)

def unlock (e : Env) (passphrase : Bytes) : Act Bool := orElse (RpcServer.unlock S F bound e passphrase) false

def lock : Act Unit := orElse (RpcServer.lock bound) ()

def addEntry (e : Env) (name username secret : Bytes) : Act Bytes :=
  orElse (RpcServer.addEntry S F bound e name username secret) []

/-- `out` is what the variables for name, username and secret hold before the call. -/
def getEntry (id : Bytes) (out : Bytes × Bytes × Bytes) : Act (Bool × Bytes × Bytes × Bytes) :=
  orElse
    (do
      let (name, username, secret) ← RpcServer.getEntry bound id
      return (!name.isEmpty, name, username, secret))
    (false, out)

def listEntries : Act (List Bytes) := orElse (RpcServer.listEntries bound) []

def deleteEntry (e : Env) (id : Bytes) : Act Bool := orElse (RpcServer.deleteEntry S F bound e id) false

end RpcClient

/-! ## Requests -/

inductive Request
  | unlock (passphrase : Bytes)
  | lock
  | addEntry (name username secret : Bytes)
  | getEntry (id : Bytes) (out : Bytes × Bytes × Bytes)
  | listEntries
  | deleteEntry (id : Bytes)

inductive Answer
  | unit
  | bool (b : Bool)
  | id (s : Bytes)
  | entry (found : Bool) (name username secret : Bytes)
  | ids (l : List Bytes)
  deriving DecidableEq

/-- What the client gets for a request. -/
def serve (e : Env) : Request → Act Answer
  | .unlock passphrase => Answer.bool <$> RpcClient.unlock S F bound e passphrase
  | .lock => (fun _ => Answer.unit) <$> RpcClient.lock bound
  | .addEntry name username secret => Answer.id <$> RpcClient.addEntry S F bound e name username secret
  | .getEntry id out => (fun r => Answer.entry r.1 r.2.1 r.2.2.1 r.2.2.2) <$> RpcClient.getEntry bound id out
  | .listEntries => Answer.ids <$> RpcClient.listEntries bound
  | .deleteEntry id => Answer.bool <$> RpcClient.deleteEntry S F bound e id

/-- One request of one of the clients. -/
structure Served where
  client : Nat
  env : Env
  request : Request

/-- The state after a request was handled on the bound vault; `none` when the process was stopped by a bad access. -/
def Proc.serve (p : Proc) (r : Served) : Option Proc :=
  match Passdoq.serve S F true r.env r.request p with
  | (.error .trap, _) => none
  | (_, p') => some p'

/-! ## What a request does -/

section Serve

variable {S : Sodium} {F : Format} {e : Env} {p p' : Proc} {name username secret id : Bytes} {out : Bytes × Bytes × Bytes}

/-- The state in which `add_entry` comes to save. -/
def added (e : Env) (p : Proc) (name username secret : Bytes) : Proc :=
  p.assign p.vault.header (p.vault.entries.insert (generateId e.id) { Entry.blank with
    id := generateId e.id, name := name, username := username, secret := secret, created := e.now, modified := e.now })

/-- The state in which `delete_entry` comes to save. -/
def deleted (p : Proc) (id : Bytes) : Proc := p.assign p.vault.header (p.vault.entries.erase id)

theorem closed_unlocked (hs : p.vault.state = .unlocked) : RpcServer.closed true p.vault = false := by
  simp [RpcServer.closed, hs]

theorem closed_otherwise (hs : p.vault.state ≠ .unlocked) : RpcServer.closed true p.vault = true := by
  simp [RpcServer.closed, hs]

theorem serve_unlock {passphrase : Bytes} : serve S F true e (.unlock passphrase) p =
    match unlock S F e passphrase p with
      | (.ok b, p') => (.ok (.bool b), p')
      | (.error (.exn _), p') => (.ok (.bool false), p')
      | (.error .trap, p') => (.error .trap, p') := by
  simp only [serve, RpcClient.unlock, RpcClient.orElse, RpcServer.unlock, not_true_eq_false, if_false, Eff.map_apply,
    Eff.catching_apply]
  rcases unlock S F e passphrase p with ⟨(f | b), p'⟩
  · cases f <;> rfl
  · rfl

theorem serve_unlock_snd {passphrase : Bytes} :
    (serve S F true e (.unlock passphrase) p).2 = (unlock S F e passphrase p).2 := by
  rw [serve_unlock]
  rcases unlock S F e passphrase p with ⟨(x | _) | b, p'⟩ <;> rfl

theorem serve_unlock_trap {passphrase : Bytes} (h : (unlock S F e passphrase p).1 = .error .trap) :
    (serve S F true e (.unlock passphrase) p).1 = .error .trap := by
  rw [serve_unlock]
  rcases hu : unlock S F e passphrase p with ⟨r, p'⟩
  rw [hu] at h
  rw [show r = .error .trap from h]

theorem serve_lock : serve S F true e .lock p = (.ok .unit, (lock p).2) := by
  simp [serve, RpcClient.lock, RpcClient.orElse, RpcServer.lock, Eff.catching_apply, lock_apply]

/-- What a closed server answers. -/
def closedAnswer : Request → Answer
  | .addEntry _ _ _ => .id []
  | .getEntry _ _ => .entry false [] [] []
  | .listEntries => .ids []
  | .deleteEntry _ | .unlock _ => .bool false
  | .lock => .unit

/-- While the vault is not unlocked, the requests on entries have no effect. -/
theorem serve_closed (hs : p.vault.state ≠ .unlocked) {r : Request} (hu : ∀ passphrase, r ≠ .unlock passphrase) :
    serve S F true e r p = (.ok (closedAnswer r), p) := by
  cases r with
  | unlock passphrase => exact absurd rfl (hu passphrase)
  | lock => rw [serve_lock, lock_apply, if_neg hs, closedAnswer]
  | addEntry name username secret =>
    simp [serve, RpcClient.addEntry, RpcClient.orElse, RpcServer.addEntry, closed_otherwise hs, Eff.catching_apply,
      closedAnswer]
  | getEntry id out =>
    simp [serve, RpcClient.getEntry, RpcClient.orElse, RpcServer.getEntry, closed_otherwise hs, Eff.catching_apply,
      closedAnswer]
  | listEntries =>
    simp [serve, RpcClient.listEntries, RpcClient.orElse, RpcServer.listEntries, closed_otherwise hs,
      Eff.catching_apply, closedAnswer]
  | deleteEntry id =>
    simp [serve, RpcClient.deleteEntry, RpcClient.orElse, RpcServer.deleteEntry, closed_otherwise hs,
      Eff.catching_apply, closedAnswer]

theorem serve_addEntry (hs : p.vault.state = .unlocked) (hk : p.vault.dataKey.isSome) :
    serve S F true e (.addEntry name username secret) p =
      (.ok (.id (generateId e.id)), (save S F e (added e p name username secret)).2) := by
  obtain ⟨b, hb⟩ := save_returns (S := S) (F := F) (e := e) (p := added e p name username secret) fun _ => hk
  rw [added] at hb ⊢
  simp [serve, RpcClient.addEntry, RpcClient.orElse, RpcServer.addEntry, closed_unlocked hs, Eff.catching_apply,
    addEntry_unlocked hs, Entry.blank] at hb ⊢
  rw [hb]

theorem serve_getEntry (hs : p.vault.state = .unlocked) : serve S F true e (.getEntry id out) p =
    (.ok (match p.vault.entries.find? id with
      | some entry => .entry (!entry.name.isEmpty) entry.name entry.username entry.secret
      | none => .entry false [] [] []), p) := by
  cases hf : p.vault.entries.find? id <;>
    simp [serve, RpcClient.getEntry, RpcClient.orElse, RpcServer.getEntry, closed_unlocked hs, Eff.catching_apply,
      getEntry_unlocked hs, hf, Fault.isException]

theorem serve_listEntries (hs : p.vault.state = .unlocked) : serve S F true e .listEntries p =
    (.ok (.ids (p.vault.entries.toList.map fun q => q.2.id)), p) := by
  simp [serve, RpcClient.listEntries, RpcClient.orElse, RpcServer.listEntries, closed_unlocked hs, Eff.catching_apply,
    listEntries_unlocked hs]

theorem serve_deleteEntry (hs : p.vault.state = .unlocked) (hk : p.vault.dataKey.isSome) :
    serve S F true e (.deleteEntry id) p =
      (.ok (.bool (p.vault.entries.find? id).isSome), if (p.vault.entries.find? id).isSome then
        (save S F e (deleted p id)).2 else deleted p id) := by
  obtain ⟨b, hb⟩ := save_returns (S := S) (F := F) (e := e) (p := deleted p id) fun _ => hk
  rw [deleted] at hb ⊢
  cases hf : p.vault.entries.find? id with
  | none =>
    simp [serve, RpcClient.deleteEntry, RpcClient.orElse, RpcServer.deleteEntry, closed_unlocked hs, Eff.catching_apply,
      deleteEntry_unlocked hs, hf]
  | some entry =>
    simp [serve, RpcClient.deleteEntry, RpcClient.orElse, RpcServer.deleteEntry, closed_unlocked hs, Eff.catching_apply,
      deleteEntry_unlocked hs, hf]
    rw [hb]

theorem Proc.serve_eq_some {r : Served} : p.serve S F r = some p' ↔
    (Passdoq.serve S F true r.env r.request p).1 ≠ .error .trap ∧
      (Passdoq.serve S F true r.env r.request p).2 = p' := by
  rw [Proc.serve]
  rcases Passdoq.serve S F true r.env r.request p with ⟨(_ | _) | _, _⟩ <;> simp

theorem step_save (hk : p.vault.state = .unlocked → p.vault.dataKey.isSome) (e : Env) :
    p.step S F (.call e .save) = some (save S F e p).2 := by
  obtain ⟨b, hb⟩ := save_returns (S := S) (F := F) (e := e) hk
  refine Proc.step_call.mpr ⟨?_, ?_⟩
  · rw [exec, Eff.map_apply, hb]
    simp
  · rw [exec, Eff.map_apply_snd]

/-- A request is a few calls on the vault. -/
theorem Proc.serve_events (hI : LockInv p.vault) {r : Served} (h : p.serve S F r = some p') :
    ∃ evs, runs (Proc.step S F) p evs = some p' := by
  obtain ⟨client, e, r⟩ := r
  obtain ⟨hr, rfl⟩ := Proc.serve_eq_some.mp h
  by_cases hs : p.vault.state = .unlocked
  · obtain ⟨-, hk⟩ := hI.unlocked hs
    have hcall : ∀ op : Op, op.onEntries → p.step S F (.call e op) =
        some (p.assign p.vault.header (op.outcome e p.vault.entries).2) := by
      intro op hop
      refine Proc.step_call.mpr ?_
      rw [exec_onEntries hop hs]
      exact ⟨op.outcome_ne_trap e _, rfl⟩
    cases r with
    | unlock passphrase =>
      refine ⟨[], ?_⟩
      simp only [serve_unlock]
      rcases unlock_cases S F e p passphrase with ⟨-, hu⟩ | ⟨hl, -⟩ | ⟨hl, -⟩
      · rw [hu]
        rfl
      · cases hs.symm.trans hl
      · cases hs.symm.trans hl
    | lock =>
      refine ⟨_, runs_one (.call e .lock) (Proc.step_call.mpr ⟨?_, ?_⟩)⟩
      · rw [exec, Eff.map_apply, lock_apply]
        simp
      · simp only [serve_lock, exec, Eff.map_apply_snd]
    | addEntry name username secret =>
      have hadd : p.step S F (.call e (.addEntry { Entry.blank with
          name := name, username := username, secret := secret })) = some (added e p name username secret) := hcall _ rfl
      have hsave := step_save (S := S) (F := F) (p := added e p name username secret) (fun _ => hk) e
      simp only [serve_addEntry hs hk]
      exact ⟨_, runs_two hadd hsave⟩
    | getEntry id out =>
      refine ⟨[], ?_⟩
      rw [serve_getEntry hs]
      rfl
    | listEntries =>
      refine ⟨[], ?_⟩
      rw [serve_listEntries hs]
      rfl
    | deleteEntry id =>
      have hdel : p.step S F (.call e (.deleteEntry id)) = some (deleted p id) := hcall _ rfl
      have hsave := step_save (S := S) (F := F) (p := deleted p id) (fun _ => hk) e
      simp only [serve_deleteEntry hs hk]
      split_ifs
      · exact ⟨_, runs_two hdel hsave⟩
      · exact ⟨_, runs_one _ hdel⟩
  · cases r with
    | unlock passphrase =>
      refine ⟨_, runs_one (.call e (.unlock passphrase)) (Proc.step_call.mpr ⟨fun ht => hr ?_, ?_⟩)⟩
      · rw [exec, Eff.map_apply_error] at ht
        exact serve_unlock_trap ht
      · simp only [serve_unlock_snd, exec, Eff.map_apply_snd]
    | _ =>
      refine ⟨[], ?_⟩
      rw [serve_closed hs (by simp)]
      rfl

/-- What requests make of a reachable vault is reachable. -/
theorem Reachable.serve (h : Reachable S F p) {calls : List Served} (hr : runs (Proc.serve S F) p calls = some p') :
    Reachable S F p' := by
  induction calls generalizing p with
  | nil =>
    cases hr
    exact h
  | cons c calls ih =>
    obtain ⟨p₁, hp₁, hr⟩ := runs_cons.mp hr
    obtain ⟨evs', hevs'⟩ := Proc.serve_events h.lockInv hp₁
    obtain ⟨fs, evs, hevs⟩ := h
    exact ih ⟨fs, evs ++ evs', runs_append.mpr ⟨p, hevs, hevs'⟩⟩ hr

/-! ## Transparency -/

/-- The client call gives what the call on the vault gives. -/
def Transparent (S : Sodium) (F : Format) (e : Env) (p : Proc) : Request → Prop
  | .unlock passphrase => ∃ b, (Vault.unlock S F e passphrase p).1 = .ok b ∧
      serve S F true e (.unlock passphrase) p = (.ok (.bool b), (Vault.unlock S F e passphrase p).2)
  | .lock => serve S F true e .lock p = (.ok .unit, (Vault.lock p).2)
  | .addEntry name username secret => ∃ id p₁ p₂,
      Vault.addEntry e { Entry.blank with name := name, username := username, secret := secret } p = (.ok id, p₁) ∧
      serve S F true e (.addEntry name username secret) p = (.ok (.id id), p₂) ∧ p₂.vault = p₁.vault ∧
      ∀ e' out, serve S F true e' (.getEntry id out) p₂ = (.ok (.entry true name username secret), p₂)
  | .getEntry id out => ∃ found name username secret,
      serve S F true e (.getEntry id out) p = (.ok (.entry found name username secret), p) ∧
      (found = true ↔ ∃ entry, p.vault.entries.find? id = some entry) ∧
      ∀ entry, p.vault.entries.find? id = some entry →
        name = entry.name ∧ username = entry.username ∧ secret = entry.secret
  | .listEntries => ∃ l, serve S F true e .listEntries p = (.ok (.ids l), p) ∧ l = p.vault.entries.toList.map Prod.fst
  | .deleteEntry id => ∃ b p₁ p₂, Vault.deleteEntry id p = (.ok b, p₁) ∧
      serve S F true e (.deleteEntry id) p = (.ok (.bool b), p₂) ∧ p₂.vault = p₁.vault ∧
      (b = true ↔ ∃ entry, p.vault.entries.find? id = some entry)

/-- The entry that the request gets or adds has a name. -/
def HasName (p : Proc) : Request → Prop
  | .addEntry name _ _ => name ≠ []
  | .getEntry id _ => ∀ entry, p.vault.entries.find? id = some entry → entry.name ≠ []
  | _ => True

theorem getEntry_transparent (hs : p.vault.state = .unlocked) :
    Transparent S F e p (.getEntry id out) ↔ HasName p (.getEntry id out) := by
  rw [Transparent, serve_getEntry hs]
  cases hf : p.vault.entries.find? id with
  | none =>
    refine ⟨fun _ entry h => ?_, fun _ => ⟨false, [], [], [], rfl, by simp, by simp⟩⟩
    rw [hf] at h
    cases h
  | some entry =>
    constructor
    · rintro ⟨found, name, username, secret, heq, hfound, -⟩ entry' h
      obtain rfl := Option.some.inj (hf.symm.trans h)
      simp only [Prod.mk.injEq, Except.ok.injEq, Answer.entry.injEq, and_true] at heq
      rw [hfound.mpr ⟨entry, rfl⟩] at heq
      simpa using heq.1
    · intro hname
      have := hname entry hf
      exact ⟨true, entry.name, entry.username, entry.secret, by simp [this], by simp, by simp⟩

theorem addEntry_transparent (hs : p.vault.state = .unlocked) (hk : p.vault.dataKey.isSome) :
    Transparent S F e p (.addEntry name username secret) ↔ name ≠ [] := by
  have hget : ∀ e' out, serve S F true e' (.getEntry (generateId e.id) out)
      (save S F e (added e p name username secret)).2 =
        (.ok (.entry (!name.isEmpty) name username secret), (save S F e (added e p name username secret)).2) := by
    intro e' out
    have hv := save_vault S F e (added e p name username secret)
    rw [serve_getEntry (by rw [hv]; exact hs), hv]
    simp [added]
  rw [Transparent, serve_addEntry hs hk, addEntry_unlocked hs]
  constructor
  · rintro ⟨id, p₁, p₂, h₁, h₂, -, h⟩ rfl
    obtain ⟨rfl, -⟩ : generateId e.id = id ∧ _ := by simpa using h₁
    obtain rfl := (Prod.mk.inj h₂).2
    have := h e ([], [], [])
    rw [hget] at this
    simp at this
  · intro hname
    refine ⟨_, _, _, rfl, rfl, save_vault S F e _, fun e' out => ?_⟩
    rw [hget]
    simp [hname]

/-- A client call on an unlocked vault is transparent exactly when the entry it gets or adds has a name. -/
theorem rpc_transparent {p₀ : Proc} (hp : Reachable S F p₀) {calls : List Served}
    (hrun : runs (Proc.serve S F) p₀ calls = some p) (hs : p.vault.state = .unlocked) (e : Env) (r : Request) :
    Transparent S F e p r ↔ HasName p r := by
  have hreach := hp.serve hrun
  obtain ⟨-, hk⟩ := hreach.lockInv.unlocked hs
  cases r with
  | unlock passphrase =>
    refine ⟨fun _ => trivial, fun _ => ⟨false, ?_⟩⟩
    rcases unlock_cases S F e p passphrase with ⟨-, hu⟩ | ⟨hl, -⟩ | ⟨hl, -⟩
    · rw [serve_unlock, hu]
      exact ⟨rfl, rfl⟩
    · cases hs.symm.trans hl
    · cases hs.symm.trans hl
  | lock => exact ⟨fun _ => trivial, fun _ => serve_lock⟩
  | addEntry name username secret => exact addEntry_transparent hs hk
  | getEntry id out => exact getEntry_transparent hs
  | listEntries =>
    refine ⟨fun _ => trivial, fun _ => ⟨_, serve_listEntries hs, List.map_congr_left fun q hq => ?_⟩⟩
    exact hreach.keyed q.1 q.2 ((OrdMap.mem_iff_find? _ _ _).mp hq)
  | deleteEntry id =>
    refine ⟨fun _ => trivial, fun _ => ⟨_, _, _, deleteEntry_unlocked hs, serve_deleteEntry hs hk, ?_,
      Option.isSome_iff_exists⟩⟩
    split_ifs
    · rw [save_vault]
      rfl
    · rfl

/-- The vault just created, and what requests made of it. -/
theorem created_serves (calls : List Served) (check : Proc → Prop) [DecidablePred check]
    (h : ((runs (Proc.step .toy spec) ⟨.fresh, fun _ => none⟩ createdRun).bind fun p =>
      runs (Proc.serve .toy spec) p calls).any fun p => check p) :
    ∃ p₀ p, Reachable .toy spec p₀ ∧ runs (Proc.serve .toy spec) p₀ calls = some p ∧ check p := by
  obtain ⟨p, hp, hcheck⟩ := (Option.any_eq_true _ _).mp h
  obtain ⟨p₀, hp₀, hp⟩ := Option.bind_eq_some_iff.mp hp
  exact ⟨p₀, p, ⟨_, _, hp₀⟩, hp, of_decide_eq_true hcheck⟩

theorem rpc_transparent_created : ∃ p, p.vault.state = .unlocked ∧ (Transparent .toy spec (Env.calm 9 .epoch) p
    (.addEntry (ascii "mail") [] (ascii "secret")) ↔ HasName p (.addEntry (ascii "mail") [] (ascii "secret"))) := by
  obtain ⟨p₀, p, hp, hrun, hs⟩ := created_serves [⟨0, Env.calm 8 .epoch, .listEntries⟩]
    (fun p => p.vault.state = .unlocked) (by decide +kernel)
  exact ⟨p, hs, rpc_transparent hp hrun hs _ _⟩

/-- An entry added with an empty name is there, but the client gets that it is not. -/
theorem rpc_transparent_nameless : ∃ p₀ p, Reachable .toy spec p₀ ∧
    runs (Proc.serve .toy spec) p₀ [⟨0, Env.calm 8 .epoch, .addEntry [] (ascii "me") (ascii "secret")⟩] = some p ∧
    p.vault.state = .unlocked ∧
    ¬ Transparent .toy spec (Env.calm 9 .epoch) p (.getEntry (generateId (Block.const 16 8)) ([], [], [])) := by
  obtain ⟨p₀, p, hp, hrun, hs, hname⟩ := created_serves
    [⟨0, Env.calm 8 .epoch, .addEntry [] (ascii "me") (ascii "secret")⟩]
    (fun p => p.vault.state = .unlocked ∧
      (p.vault.entries.find? (generateId (Block.const 16 8))).map Entry.name = some []) (by decide +kernel)
  refine ⟨p₀, p, hp, hrun, hs, fun h => ?_⟩
  obtain ⟨entry, hentry, hempty⟩ := Option.map_eq_some_iff.mp hname
  exact (getEntry_transparent hs).mp h entry hentry hempty

end Serve

end Passdoq
